import TidySpace.Decimal.Shortest
import TidySpace.Text.Quoted

/-! # Values

Settings, rule options and the extra data of a finding come from outside and may hold anything, so
they are values of one dynamic type. Objects keep the order of their members, which matters only
when they are written; `same` compares them member by member. `quote` shows a value in a message.

A mapping that is made from pairs may have keys other than texts. It is an object if it has none,
and a table otherwise; `Rows` is the view that both have in common.
-/

namespace TidySpace

open Decimal (Binary64)

inductive Value where
  | null
  | bool (b : Bool)
  | int (n : Int)
  | real (x : Binary64)
  | text (s : String)
  | list (items : List Value)
  | object (members : List (String × Value))
  /-- A mapping with a key that is no text. -/
  | table (rows : List (Value × Value))
  deriving Inhabited

abbrev Members := List (String × Value)

/-- The keys of a mapping with their values. -/
abbrev Rows := List (Value × Value)

inductive Mismatch where
  /-- A mapping was needed. -/
  | notAMapping
  /-- A value of another kind was needed. -/
  | wrongKind
  /-- A pair was needed, and a sequence of another length found. -/
  | notAPair
  deriving DecidableEq, Repr

namespace Members

/-- The member under a key. -/
def get? (ms : Members) (key : String) : Option Value := ms.lookup key

def put (key : String) (v : Value) : Members → Members
  | [] => [(key, v)]
  | (k, w) :: rest => if k = key then (key, v) :: rest else (k, w) :: put key v rest

def putAll (ms more : Members) : Members := more.foldl (fun acc m => put m.1 m.2 acc) ms

def keys (ms : Members) : List String := ms.map Prod.fst

theorem get?_cons (m : String × Value) (ms : Members) (key : String) :
    get? (m :: ms) key = if key = m.1 then some m.2 else get? ms key := by
  obtain ⟨k, v⟩ := m
  rw [get?, get?, List.lookup_cons]
  by_cases h : key = k
  · simp [h]
  · simp [h, beq_eq_false_iff_ne.2 h]

theorem get?_put (key key' : String) (v : Value) (ms : Members) :
    get? (put key v ms) key' = if key' = key then some v else get? ms key' := by
  induction ms with
  | nil => simp [put, get?_cons]
  | cons m ms ih =>
    obtain ⟨k, w⟩ := m
    by_cases hk : k = key
    · subst hk
      by_cases h : key' = k <;> simp [put, get?_cons, h]
    · by_cases h : key' = k
      · subst h
        simp [put, get?_cons, hk]
      · simp [put, get?_cons, hk, h, ih]

end Members

namespace Value

/-- A value counts as given unless it is null, false, zero, or empty. -/
def isGiven : Value → Bool
  | .null => false
  | .bool b => b
  | .int n => n != 0
  | .real x => !x.isZero
  | .text s => !s.isEmpty
  | .list items => !items.isEmpty
  | .object members => !members.isEmpty
  | .table rows => !rows.isEmpty

/-- The value, or `other` in place of one that does not count as given. -/
def orElse (v other : Value) : Value := if v.isGiven then v else other

/-- Whether a value is a list or a mapping; such values cannot be looked up and are no keys. -/
def isContainer : Value → Bool
  | .list _ => true
  | .object _ => true
  | .table _ => true
  | _ => false

def isText (v : Value) (s : String) : Bool :=
  match v with
  | .text t => t == s
  | _ => false

def members? : Value → Except Mismatch Members
  | .object members => .ok members
  | _ => .error .notAMapping

/-- The items of a value that can be gone through: those of a list, the characters of a text, the
keys of a mapping. -/
def items? : Value → Except Mismatch (List Value)
  | .list items => .ok items
  | .text s => .ok (s.toList.map fun c => .text (String.singleton c))
  | .object members => .ok (members.map fun m => .text m.1)
  | .table rows => .ok (rows.map Prod.fst)
  | _ => .error .wrongKind

/-! ### Equality -/

def sameWhole (n : Int) : Value → Bool
  | .bool b => n == (if b then 1 else 0)
  | .int m => n == m
  | .real x => x.eqInt n
  | _ => false

def sameReal (x : Binary64) : Value → Bool
  | .bool b => x.eqInt (if b then 1 else 0)
  | .int m => x.eqInt m
  | .real y => x.same y
  | _ => false

mutual

/-- Whether two values are equal: numbers by what they stand for, where true is one and false is
zero, lists item by item, mappings key by key whatever their order. -/
def same : Value → Value → Bool
  | .null, .null => true
  | .bool a, w => sameWhole (if a then 1 else 0) w
  | .int n, w => sameWhole n w
  | .real x, w => sameReal x w
  | .text s, .text t => s == t
  | .list vs, .list ws => sameItems vs ws
  | .object vs, .object ws => vs.length == ws.length && sameMembers vs ws
  | .table vs, .table ws => vs.length == ws.length && sameRows vs ws
  | _, _ => false

def sameItems : List Value → List Value → Bool
  | [], [] => true
  | v :: vs, w :: ws => same v w && sameItems vs ws
  | _, _ => false

def sameMembers : List (String × Value) → List (String × Value) → Bool
  | [], _ => true
  | (key, v) :: vs, ws =>
    (match ws.lookup key with
      | some w => same v w
      | none => false) && sameMembers vs ws

def sameRows : List (Value × Value) → List (Value × Value) → Bool
  | [], _ => true
  | (key, v) :: vs, ws => (ws.any fun r => same key r.1 && same v r.2) && sameRows vs ws

end

end Value

/-! ### Mappings -/

namespace Rows

/-- The value under a key. -/
def get? (rows : Rows) (key : Value) : Option Value :=
  (rows.find? fun r => key.same r.1).map Prod.snd

def put (key v : Value) : Rows → Rows
  | [] => [(key, v)]
  | (k, w) :: rest => if k.same key then (k, v) :: rest else (k, w) :: put key v rest

def putAll (rows more : Rows) : Rows := more.foldl (fun acc r => put r.1 r.2 acc) rows

def members? (rows : Rows) : Option Members :=
  rows.mapM fun r =>
    match r.1 with
    | .text key => some (key, r.2)
    | _ => none

theorem members?_map_text (ms : Members) :
    members? (ms.map fun m => (.text m.1, m.2)) = some ms := by
  induction ms with
  | nil => rfl
  | cons m ms ih =>
    rw [members?] at ih
    rw [members?, List.map_cons, List.mapM_cons, ih]
    rfl

theorem eq_map_of_members? {rows : Rows} {ms : Members} (h : members? rows = some ms) :
    rows = ms.map fun m => (.text m.1, m.2) := by
  induction rows generalizing ms with
  | nil =>
    cases h
    rfl
  | cons r rows ih =>
    obtain ⟨key, v⟩ := r
    rw [members?, List.mapM_cons] at h
    cases key with
    | text key =>
      obtain ⟨m, hm, h⟩ := Option.bind_eq_some_iff.1 h
      cases hm
      obtain ⟨rest, hRest, hEq⟩ := Option.bind_eq_some_iff.1 h
      cases hEq
      rw [List.map_cons, ← ih hRest]
    | _ => cases h

/-- Puts the key and the value of a pair, which may be any sequence of two items. -/
def putPair (rows : Rows) (pair : Value) : Except Mismatch Rows := do
  match ← pair.items? with
  | [key, v] => if key.isContainer then throw .wrongKind else return put key v rows
  | _ => throw .notAPair

end Rows

namespace Value

def ofRows (rows : Rows) : Value :=
  match Rows.members? rows with
  | some members => .object members
  | none => .table rows

def rows? : Value → Except Mismatch Rows
  | .object members => .ok (members.map fun m => (.text m.1, m.2))
  | .table rows => .ok rows
  | _ => .error .notAMapping

@[simp] theorem rows?_ofRows (rows : Rows) : (ofRows rows).rows? = .ok rows := by
  unfold ofRows
  split
  next members h =>
    rw [Rows.eq_map_of_members? h]
    rfl
  next => rfl

theorem ofRows_map_text (members : Members) :
    ofRows (members.map fun m => (.text m.1, m.2)) = .object members := by
  rw [ofRows, Rows.members?_map_text]

/-- The rows of a mapping, or those that a sequence of pairs makes, of which later ones win. -/
def mapping? (v : Value) : Except Mismatch Rows :=
  match v.rows? with
  | .ok rows => .ok rows
  | .error _ => do
    let pairs ← v.items?
    pairs.foldlM Rows.putPair []

/-! ### The form shown in messages -/

mutual

def quote : Value → String
  | .null => "None"
  | .bool true => "True"
  | .bool false => "False"
  | .int n => toString n
  | .real x => x.render
  | .text s => String.ofList (Text.quote s.toList)
  | .list items => "[" ++ ", ".intercalate (quoteItems items) ++ "]"
  | .object members => "\x7b" ++ ", ".intercalate (quoteMembers members) ++ "\x7d"
  | .table rows => "\x7b" ++ ", ".intercalate (quoteRows rows) ++ "\x7d"

def quoteItems : List Value → List String
  | [] => []
  | v :: vs => quote v :: quoteItems vs

def quoteMembers : List (String × Value) → List String
  | [] => []
  | (key, v) :: vs =>
    (String.ofList (Text.quote key.toList) ++ ": " ++ quote v) :: quoteMembers vs

def quoteRows : List (Value × Value) → List String
  | [] => []
  | (key, v) :: vs => (quote key ++ ": " ++ quote v) :: quoteRows vs

end

/-- A value inside the wording of a message: a text as it is, and any other value as it is shown. -/
def plain : Value → String
  | .text s => s
  | v => v.quote

end Value

end TidySpace
