import TidySpace.CommandLine.Run
import TidySpace.Proofs.Batches
import TidySpace.Proofs.FileNames
import TidySpace.Proofs.Overwriting
import TidySpace.Proofs.Passes
import TidySpace.Proofs.Slices

/-! # Files after they were fixed

Fixing files reads all of them first, and then fixes and overwrites them one by one. A file can be
there under two names, but both were read before anything was written, and both are fixed to the same
text. So in the end each file holds what its text is fixed to, and nothing else has changed
(`fixAll_rewrites`). Read again, the files have the findings that fixing left (`gather_fixAll`).
-/

namespace TidySpace

open Utf8 (encode)

/-! ### Work with a result -/

namespace Work

variable {α β : Type} {w : Work α} {t t' t'' : FileTree} {a b : α}

/-- The work on a tree has a result, and leaves a tree. -/
def Ends (w : Work α) (t : FileTree) (a : α) (t' : FileTree) : Prop :=
  (w t).1.result = .ok a ∧ (w t).2 = t'

theorem Ends.unique (h : w.Ends t a t') (h' : w.Ends t b t'') : a = b ∧ t' = t'' :=
  ⟨Except.ok.inj (h.1.symm.trans h'.1), h.2.symm.trans h'.2⟩

theorem ends_done : (done a).Ends t b t' ↔ a = b ∧ t = t' := by
  rw [Ends]
  exact and_congr ⟨Except.ok.inj, congrArg _⟩ Iff.rfl

/-- **Work in two parts** ends where its second part does, on what the first part leaves. -/
theorem ends_bind {f : α → Work β} {b : β} :
    (w >>= f).Ends t b t'' ↔ ∃ a t', w.Ends t a t' ∧ (f a).Ends t' b t'' := by
  show (w.andThen f).Ends t b t'' ↔ _
  rw [Ends, andThen]
  dsimp only
  split
  next e hError =>
    constructor
    · rintro ⟨hEnd, -⟩
      cases hEnd
    · rintro ⟨a, t', ⟨hOk, -⟩, -⟩
      rw [hError] at hOk
      cases hOk
  next a hOk =>
    rw [Logged.result_andThen, hOk]
    constructor
    · exact fun hEnd => ⟨a, _, ⟨hOk, rfl⟩, hEnd⟩
    · rintro ⟨a', t', ⟨hOk', rfl⟩, hEnd⟩
      obtain rfl := Except.ok.inj (hOk.symm.trans hOk')
      exact hEnd

end Work

/-! ### Trees in which texts were replaced -/

namespace FileTree

variable {target : List Char → List Char} {t₀ t t' : FileTree} {path : String} {p : Path}
variable {text : List Char}

/-- A tree in which some files hold what their texts are to become, and all else is as before. -/
structure Rewritten (target : List Char → List Char) (t₀ t : FileTree) : Prop where
  alike : Alike t₀ t
  held : ∀ p, t.get? p = t₀.get? p ∨ ∃ text, t₀.get? p = some (.file (encode text)) ∧
    t.get? p = some (.file (encode (target text)))

theorem Rewritten.refl (target : List Char → List Char) (t : FileTree) : Rewritten target t t :=
  ⟨Alike.refl t, fun _ => Or.inl rfl⟩

/-- A tree that differs at one file, where a text has become what it is to become. -/
theorem Rewritten.of_get? (h : Rewritten target t₀ t) (hAlike : Alike t t')
    (hGet : t₀.get? p = some (.file (encode text)))
    (hAt : ∀ q, t'.get? q =
      if q = p then some (.file (encode (target text))) else t.get? q) :
    Rewritten target t₀ t' := by
  refine ⟨h.alike.trans hAlike, fun q => ?_⟩
  rw [hAt]
  by_cases hq : q = p
  · subst hq
    rw [if_pos rfl]
    exact Or.inr ⟨text, hGet, rfl⟩
  · rw [if_neg hq]
    exact h.held q

theorem get?_of_readText? (h : t.readText? path = some text) :
    ∃ p, t.spot? path = some p ∧ t.get? p = some (.file (encode text)) := by
  obtain ⟨p, hLocate⟩ := readText?_eq_some.1 h
  exact ⟨p, locate?_eq_some hLocate⟩

theorem readText?_of_get? (hSpot : t.spot? path = some p)
    (hGet : t.get? p = some (.file (encode text))) : t.readText? path = some text := by
  obtain ⟨e, hLocate⟩ := locate?_of_spot? hSpot
  have hHere := (locate?_eq_some hLocate).2
  rw [hGet] at hHere
  rw [← Option.some.inj hHere] at hLocate
  exact readText?_eq_some.2 ⟨p, hLocate⟩

theorem readText?_congr {path' : String} (h : t.spot? path = t.spot? path') :
    t.readText? path = t.readText? path' := by
  rw [readText?, readText?, read?, read?, locate?_congr h]

theorem Rewritten.readText?_eq_none (h : Rewritten target t₀ t) (hNone : t₀.readText? path = none) :
    t.readText? path = none := by
  cases hText : t.readText? path with
  | none => rfl
  | some text =>
    obtain ⟨p, hSpot, hGet⟩ := get?_of_readText? hText
    rw [← h.alike.spot?_eq] at hSpot
    rcases h.held p with hOld | ⟨text', hText', -⟩
    · rw [readText?_of_get? hSpot (hOld.symm.trans hGet)] at hNone
      cases hNone
    · rw [readText?_of_get? hSpot hText'] at hNone
      cases hNone

end FileTree

/-! ### Fixing files -/

namespace CommandLine

open FileTree (Alike Rewritten)

variable {target : List Char → List Char} {t₀ t t' : FileTree} {path : String} {p : Path}
variable {text : List Char}

/-- **One file is delivered**: it holds what its text is to become, and no other file changes. -/
theorem deliver_rewrites (h : Rewritten target t₀ t) (hSpot : t₀.spot? path = some p)
    (hGet : t₀.get? p = some (.file (encode text))) :
    ∃ t', (deliver false path text (target text)).Ends t "" t' ∧ Rewritten target t₀ t' ∧
      ∀ q, t'.get? q =
        if q = p then some (.file (encode (target text))) else t.get? q := by
  rw [deliver]
  by_cases hSame : target text = text
  · -- Nothing is written, and what is there is the text, which was to stay.
    rw [if_pos hSame]
    refine ⟨t, ⟨rfl, rfl⟩, h, fun q => ?_⟩
    by_cases hq : q = p
    · subst hq
      rw [if_pos rfl]
      rcases h.held q with hOld | ⟨text', hText', hNew⟩
      · rw [hOld, hGet, hSame]
      · rw [hGet] at hText'
        have hBytes : encode text = encode text' := by injections
        rw [hNew, Utf8.encode_injective hBytes]
    · rw [if_neg hq]
  · rw [if_neg hSame, if_neg Bool.false_ne_true]
    obtain ⟨e, hLocate⟩ : ∃ e, t.locate? path = some (p, e) :=
      FileTree.locate?_of_spot? (h.alike.spot?_eq path ▸ hSpot)
    obtain ⟨data, rfl⟩ : ∃ data, e = .file data := by
      have hKind := h.alike.isFile_eq hGet (FileTree.locate?_eq_some hLocate).2
      cases e with
      | folder => cases hKind
      | file data => exact ⟨data, rfl⟩
    obtain ⟨hAlike, hAt⟩ := FileTree.overwrite_of_locate? hLocate (encode (target text))
    exact ⟨_, ⟨rfl, rfl⟩, h.of_get? hAlike hGet hAt, hAt⟩

variable {fix : String → List Char → Logged (List Char × List Finding)}
variable {analyze : String → List Char → Logged (List Finding)}

theorem ends_fixAll_cons {showOnly : Bool} {rest : Texts} {shown : String} {left : List Finding} :
    (fixAll fix showOnly ((path, text) :: rest)).Ends t (shown, left) t' ↔
      ∃ fixed here first t₁ later more, (fix path text).result = .ok (fixed, here) ∧
        (deliver showOnly path text fixed).Ends t first t₁ ∧
        (fixAll fix showOnly rest).Ends t₁ (later, more) t' ∧
        first ++ later = shown ∧ here ++ more = left := by
  rw [fixAll]
  constructor
  · intro h
    obtain ⟨⟨fixed, here⟩, _, ⟨hFixed, rfl⟩, h⟩ := Work.ends_bind.1 h
    obtain ⟨first, t₁, hFirst, h⟩ := Work.ends_bind.1 h
    obtain ⟨⟨later, more⟩, t₂, hRest, h⟩ := Work.ends_bind.1 h
    obtain ⟨hJoined, rfl⟩ := Work.ends_done.1 h
    obtain ⟨rfl, rfl⟩ := Prod.mk.inj hJoined
    exact ⟨fixed, here, first, t₁, later, more, hFixed, hFirst, hRest, rfl, rfl⟩
  · rintro ⟨fixed, here, first, t₁, later, more, hFixed, hFirst, hRest, rfl, rfl⟩
    exact Work.ends_bind.2 ⟨_, t, ⟨hFixed, rfl⟩, Work.ends_bind.2 ⟨_, t₁, hFirst,
      Work.ends_bind.2 ⟨_, t', hRest, Work.ends_done.2 ⟨rfl, rfl⟩⟩⟩⟩

theorem mem_of_fixAll {showOnly : Bool} {texts : Texts} {shown : String} {left : List Finding}
    (h : (fixAll fix showOnly texts).Ends t (shown, left) t') {f : Finding} (hf : f ∈ left) :
    ∃ e ∈ texts, ∃ fixed here, (fix e.1 e.2).result = .ok (fixed, here) ∧ f ∈ here := by
  induction texts generalizing t shown left with
  | nil =>
    obtain ⟨hEmpty, -⟩ := Work.ends_done.1 h
    cases hEmpty
    exact absurd hf List.not_mem_nil
  | cons e rest ih =>
    obtain ⟨fixed, here, first, t₁, later, more, hFixed, -, hRest, -, rfl⟩ := ends_fixAll_cons.1 h
    rcases List.mem_append.1 hf with hf | hf
    · exact ⟨e, List.mem_cons_self, fixed, here, hFixed, hf⟩
    · obtain ⟨e', he', hFound⟩ := ih hRest hf
      exact ⟨e', List.mem_cons_of_mem e he', hFound⟩

theorem fixAll_shown_files (texts : Texts) (t : FileTree) : (fixAll fix true texts t).2 = t := by
  have hDeliver (path : String) (text fixed : List Char) :
      (deliver true path text fixed t).2 = t := by
    rw [deliver]
    split <;> rfl
  induction texts with
  | nil => rfl
  | cons e rest ih =>
    refine Work.andThen_files rfl fun fixed => ?_
    refine Work.andThen_files (hDeliver e.1 e.2 fixed.1) fun _ => ?_
    exact Work.andThen_files ih fun _ => rfl

theorem fixAll_shows {texts : Texts} {shown : String} {left : List Finding}
    (h : (fixAll fix true texts).Ends t (shown, left) t') : t' = t :=
  h.2.symm.trans (fixAll_shown_files texts t)

/-- **Files are fixed one by one.** Where texts that were read are each fixed to `target`, in the end
the files they were read from hold what they are fixed to, and nothing else has changed. The findings
are those of the fixed texts. -/
theorem fixAll_rewrites {texts : Texts} {shown : String} {left : List Finding}
    (hFix : ∀ path text fixed found, (fix path text).result = .ok (fixed, found) →
      fixed = target text ∧ (analyze path fixed).result = .ok found)
    (hTexts : ∀ e ∈ texts, t₀.readText? e.1 = some e.2) (h : Rewritten target t₀ t)
    (hRun : (fixAll fix false texts).Ends t (shown, left) t') :
    shown = "" ∧ Rewritten target t₀ t' ∧
      (∀ e ∈ texts, ∀ p, t₀.spot? e.1 = some p →
        t'.get? p = some (.file (encode (target e.2)))) ∧
      (∀ p, (∀ e ∈ texts, t₀.spot? e.1 ≠ some p) → t'.get? p = t.get? p) ∧
      (Logged.gather (fun e => analyze e.1 (target e.2)) texts).result = .ok left := by
  induction texts generalizing t shown left with
  | nil =>
    obtain ⟨hEmpty, rfl⟩ := Work.ends_done.1 hRun
    cases hEmpty
    exact ⟨rfl, h, fun e he => absurd he List.not_mem_nil, fun _ _ => rfl, rfl⟩
  | cons e rest ih =>
    obtain ⟨path, text⟩ := e
    obtain ⟨p, hSpot, hGet⟩ := FileTree.get?_of_readText? (hTexts _ List.mem_cons_self)
    obtain ⟨fixed, here, first, t₁, later, more, hFixed, hFirst, hRest, rfl, rfl⟩ :=
      ends_fixAll_cons.1 hRun
    obtain ⟨rfl, hHere⟩ := hFix path text fixed here hFixed
    obtain ⟨t₁', hDelivered, hRewritten, hAt⟩ := deliver_rewrites h hSpot hGet
    obtain ⟨rfl, rfl⟩ := hDelivered.unique hFirst
    obtain ⟨rfl, hAfter, hHeld, hOther, hMore⟩ :=
      ih (fun e he => hTexts e (List.mem_cons_of_mem _ he)) hRewritten hRest
    refine ⟨rfl, hAfter, fun e he q hq => ?_, fun q hq => ?_, ?_⟩
    · by_cases hLater : ∃ e' ∈ rest, t₀.spot? e'.1 = some q
      · -- The last one of the names of a file decides, and all were read as the same text.
        obtain ⟨e', he', hq'⟩ := hLater
        have hSame := FileTree.readText?_congr (hq.trans hq'.symm)
        rw [hTexts e he, hTexts e' (List.mem_cons_of_mem _ he')] at hSame
        rw [hHeld e' he' q hq', Option.some.inj hSame]
      · have hNot : ∀ e' ∈ rest, t₀.spot? e'.1 ≠ some q :=
          fun e' he' hq' => hLater ⟨e', he', hq'⟩
        rcases List.mem_cons.1 he with rfl | he
        · obtain rfl := Option.some.inj (hSpot.symm.trans hq)
          rw [hOther _ hNot, hAt, if_pos rfl]
        · exact absurd hq (hNot e he)
    · rw [hOther q fun e he => hq e (List.mem_cons_of_mem _ he), hAt, if_neg]
      rintro rfl
      exact hq _ List.mem_cons_self hSpot
    · rw [Logged.result_gather_cons, hHere, hMore]
      rfl

end CommandLine

/-! ### Reading files again -/

/-- The text of a file with its path, if it can be read. -/
def FileTree.readable (t : FileTree) (path : String) : Texts :=
  ((t.readText? path).map fun text => (path, text)).toList

theorem FileTree.mem_readable {t : FileTree} {path : String} {e : String × List Char} :
    e ∈ t.readable path ↔ e.1 = path ∧ t.readText? path = some e.2 := by
  obtain ⟨path', text⟩ := e
  rw [readable, Option.mem_toList, Option.map_eq_some_iff]
  constructor
  · rintro ⟨text', hText, hEq⟩
    obtain ⟨rfl, rfl⟩ := Prod.mk.inj hEq
    exact ⟨rfl, hText⟩
  · rintro ⟨rfl, hText⟩
    exact ⟨text, hText, rfl⟩

theorem FileTree.mem_flatMap_readable {t : FileTree} {files : List String} {e : String × List Char} :
    e ∈ files.flatMap t.readable ↔ e.1 ∈ files ∧ t.readText? e.1 = some e.2 := by
  rw [List.mem_flatMap]
  constructor
  · rintro ⟨path, hPath, he⟩
    obtain ⟨rfl, hText⟩ := mem_readable.1 he
    exact ⟨hPath, hText⟩
  · rintro ⟨hPath, hText⟩
    exact ⟨e.1, hPath, mem_readable.2 ⟨rfl, hText⟩⟩

theorem CommandLine.result_readTexts (t : FileTree) (paths : List String) :
    (readTexts t paths).result = .ok (paths.flatMap t.readable) := by
  refine Logged.gather_eq_ok fun path _ => ?_
  rw [Logged.result_bind, Batch.result_readText, FileTree.readable]
  cases t.readText? path <;> rfl

namespace Batch

variable {grammar : Grammar} {t t' : FileTree} {s : Settings} {rules : List Rule}
variable {target : List Char → List Char} {files : List String}

/-- Where the texts of files have become what they were to become, those are analysed. -/
theorem gather_ofFile (h : ∀ path ∈ files, t'.readText? path = (t.readText? path).map target) :
    (Logged.gather (ofFile grammar t' s rules) files).result =
      (Logged.gather (fun e => Analysis.run grammar s rules e.1 (target e.2))
        (files.flatMap t.readable)).result := by
  induction files with
  | nil => rfl
  | cons path rest ih =>
    rw [Logged.result_gather_cons, ih fun path hPath => h path (List.mem_cons_of_mem _ hPath),
      List.flatMap_cons, result_ofFile, h path List.mem_cons_self, FileTree.readable]
    cases t.readText? path with
    | none =>
      show Except.bind (.ok []) _ = (Logged.gather _ (rest.flatMap t.readable)).result
      generalize (Logged.gather _ (rest.flatMap t.readable)).result = later
      cases later <;> rfl
    | some text =>
      show _ = (Logged.gather _ ((path, text) :: rest.flatMap t.readable)).result
      rw [Logged.result_gather_cons]
      rfl

end Batch

/-- What a text is fixed to, if fixing it has a result. -/
def Fixing.target (grammar : Grammar) (s : Settings) (rules : List Rule) (text : List Char) :
    List Char :=
  match (run grammar s rules "" text).result with
  | .ok (fixed, _) => fixed
  | .error _ => text

/-- Under every name, fixing makes the target of a text and leaves the findings of the target. -/
theorem Fixing.eq_target {grammar : Grammar} {s : Settings} {rules : List Rule} {path : String}
    {text fixed : List Char} {left : List Finding} (hRules : rules ⊆ Standard.rules)
    (h : (run grammar s rules path text).result = .ok (fixed, left)) :
    fixed = target grammar s rules text ∧
      (Analysis.run grammar s rules path fixed).result = .ok left := by
  constructor
  · rw [run_inFile grammar s hRules path ""] at h
    rw [target]
    cases hRun : (run grammar s rules "" text).result with
    | error e =>
      rw [hRun] at h
      cases h
    | ok r =>
      rw [hRun] at h
      cases h
      rfl
  · rw [run_eq_runWith] at h
    obtain ⟨-, -, -, -, -, hLeft, -⟩ := exists_texts_of_runWith h
    exact hLeft

section FixAll

variable {grammar : Grammar} {s : Settings} {rules : List Rule} {t t' : FileTree}
variable {files : List String} {shown : String} {left : List Finding}
variable (hRules : rules ⊆ Standard.rules)
variable (hRun : (CommandLine.fixAll (Fixing.run grammar s rules) false
  (files.flatMap t.readable)).Ends t (shown, left) t')
include hRules hRun

theorem CommandLine.fixAll_targets :
    shown = "" ∧ t.Rewritten (Fixing.target grammar s rules) t' ∧
    (∀ e ∈ files.flatMap t.readable, ∀ p, t.spot? e.1 = some p →
      t'.get? p = some (.file (encode (Fixing.target grammar s rules e.2)))) ∧
    (∀ p, (∀ e ∈ files.flatMap t.readable, t.spot? e.1 ≠ some p) → t'.get? p = t.get? p) ∧
    (Logged.gather (fun e => Analysis.run grammar s rules e.1 (Fixing.target grammar s rules e.2))
      (files.flatMap t.readable)).result = .ok left := by
  have hFix (path : String) (text fixed : List Char) (found : List Finding)
      (h : (Fixing.run grammar s rules path text).result = .ok (fixed, found)) :
      fixed = Fixing.target grammar s rules text ∧
        (Analysis.run grammar s rules path fixed).result = .ok found := Fixing.eq_target hRules h
  exact fixAll_rewrites hFix (fun e he => (FileTree.mem_flatMap_readable.1 he).2)
    (FileTree.Rewritten.refl _ t) hRun

theorem CommandLine.fixAll_files : shown = "" ∧ t.Alike t' ∧
    (∀ p, (∀ file ∈ files, t.spot? file ≠ some p) → t'.get? p = t.get? p) ∧
    (∀ file ∈ files, t'.readText? file = (t.readText? file).map (Fixing.target grammar s rules)) ∧
    (Logged.gather (fun e => Analysis.run grammar s rules e.1 (Fixing.target grammar s rules e.2))
      (files.flatMap t.readable)).result = .ok left := by
  obtain ⟨hShown, hAfter, hHeld, hOther, hLeft⟩ := fixAll_targets hRules hRun
  refine ⟨hShown, hAfter.alike, ?_, ?_, hLeft⟩
  · exact fun p hp => hOther p fun e he => hp _ (FileTree.mem_flatMap_readable.1 he).1
  intro path hPath
  cases hText : t.readText? path with
  | none => exact hAfter.readText?_eq_none hText
  | some text =>
    obtain ⟨p, hSpot, -⟩ := FileTree.get?_of_readText? hText
    have hMem : (path, text) ∈ files.flatMap t.readable :=
      FileTree.mem_flatMap_readable.2 ⟨hPath, hText⟩
    exact FileTree.readText?_of_get? (hAfter.alike.spot?_eq path ▸ hSpot) (hHeld _ hMem p hSpot)

/-- **What fixing files leaves.** The files are those that were there, nothing has changed but the
listed ones, and an analysis of them finds what fixing reported. -/
theorem CommandLine.gather_fixAll : shown = "" ∧ t.Alike t' ∧
    (∀ p, (∀ file ∈ files, t.spot? file ≠ some p) → t'.get? p = t.get? p) ∧
    (Logged.gather (Batch.ofFile grammar t' s rules) files).result = .ok left := by
  obtain ⟨hShown, hAlike, hOther, hTexts, hLeft⟩ := fixAll_files hRules hRun
  exact ⟨hShown, hAlike, hOther, (Batch.gather_ofFile hTexts).trans hLeft⟩

end FixAll

end TidySpace
