import TidySpace.Failure

/-! # Logged computations, and work on files

A `Logged` computation has a result or a failure, and a log: the warnings it gave, in order, and how
often it had a text parsed. The log of a computation that fails is kept up to where it failed.

`Work` looks at a file tree and may change it. Its outcome is a logged result; the tree is kept as the
computation leaves it, also where it fails.
-/

namespace TidySpace

/-- A result or a failure, with the warnings and the number of parses on the way there. -/
structure Logged (α : Type) where
  result : Except Failure α
  warnings : List Warning
  parses : Nat

namespace Logged

variable {α β : Type}

def done (a : α) : Logged α := ⟨.ok a, [], 0⟩

def failed (e : Failure) : Logged α := ⟨.error e, [], 0⟩

def lift (result : Except Failure α) : Logged α := ⟨result, [], 0⟩

def warn (w : Warning) : Logged Unit := ⟨.ok (), [w], 0⟩

def countParse : Logged Unit := ⟨.ok (), [], 1⟩

/-- Goes on with the result, if there is one; the logs are joined. -/
def andThen (x : Logged α) (f : α → Logged β) : Logged β :=
  match x.result with
  | .error e => ⟨.error e, x.warnings, x.parses⟩
  | .ok a =>
    let y := f a
    ⟨y.result, x.warnings ++ y.warnings, x.parses + y.parses⟩

instance : Monad Logged where
  pure := done
  bind := andThen

theorem bind_eq (x : Logged α) (f : α → Logged β) : x >>= f = andThen x f := rfl

@[simp] theorem done_andThen (a : α) (f : α → Logged β) : (done a).andThen f = f a := by
  simp [done, andThen]

theorem result_andThen (x : Logged α) (f : α → Logged β) :
    (x.andThen f).result = x.result.bind fun a => (f a).result := by
  unfold andThen Except.bind
  split <;> simp_all

/-- Runs a computation on each item in order and joins the lists of results. -/
def gather (f : α → Logged (List β)) : List α → Logged (List β)
  | [] => done []
  | a :: rest => do
    let here ← f a
    let there ← gather f rest
    return here ++ there

end Logged

/-! ### Work on files -/

def Work (α : Type) : Type := FileTree → Logged α × FileTree

namespace Work

variable {α β : Type}

def done (a : α) : Work α := fun t => (.done a, t)

/-- Goes on with the result, if there is one, on the files as they are by then. -/
def andThen (w : Work α) (f : α → Work β) : Work β := fun t =>
  let first := w t
  match first.1.result with
  | .error e => (⟨.error e, first.1.warnings, first.1.parses⟩, first.2)
  | .ok a =>
    let second := f a first.2
    (first.1.andThen fun _ => second.1, second.2)

instance : Monad Work where
  pure := done
  bind := andThen

def look (f : FileTree → Logged α) : Work α := fun t => (f t, t)

def lift (x : Logged α) : Work α := fun t => (x, t)

/-- Writes the bytes of a file that is there. -/
def overwrite (path : String) (data : List UInt8) : Work Unit := fun t =>
  (.done (), t.overwrite path data)

theorem andThen_files {w : Work α} {f : α → Work β} {t : FileTree} (hFirst : (w t).2 = t)
    (hSecond : ∀ a, (f a t).2 = t) : (w.andThen f t).2 = t := by
  unfold andThen
  dsimp only
  split
  · exact hFirst
  · rw [hFirst]
    exact hSecond _

end Work

end TidySpace
