import TidySpace.Proofs.Reports
import TidySpace.Proofs.Utf8

/-! # The tokens of a well-formed tree

In a well-formed tree the children of each node are *laid* one behind the other between its offsets,
and no offset cuts a character. The tokens of such a tree are in order, none is empty, and they do
not overlap (`orderly_ofText`); so a binary search over them finds what it is meant to find. The
token behind a token and the one before it are then its neighbours, and a pair that the curly rule
looks at is a pair of neighbours (`Checked.adjacent`).
-/

namespace TidySpace

namespace Node

/-! ### Laid nodes -/

/-- Nodes that lie one behind the other between two offsets. -/
def Laid (start stop : Nat) : List Node → Prop
  | [] => start ≤ stop
  | n :: ns => start ≤ n.start ∧ n.start ≤ n.stop ∧ Laid n.stop stop ns

instance decidableLaid : (start stop : Nat) → (ns : List Node) → Decidable (Laid start stop ns)
  | start, stop, [] => inferInstanceAs (Decidable (start ≤ stop))
  | start, stop, n :: ns =>
    have := decidableLaid n.stop stop ns
    inferInstanceAs (Decidable (start ≤ n.start ∧ n.start ≤ n.stop ∧ Laid n.stop stop ns))

variable {start mid stop : Nat} {ns ms : List Node}

theorem Laid.le (h : Laid start stop ns) : start ≤ stop := by
  induction ns generalizing start with
  | nil => exact h
  | cons n ns ih =>
    obtain ⟨hStart, hForward, hRest⟩ := h
    have := ih hRest
    omega

theorem Laid.mono (h : Laid mid stop ns) (hStart : start ≤ mid) : Laid start stop ns := by
  cases ns with
  | nil => exact Nat.le_trans hStart h
  | cons n ns => exact ⟨Nat.le_trans hStart h.1, h.2⟩

theorem Laid.append (h : Laid start mid ns) (h' : Laid mid stop ms) : Laid start stop (ns ++ ms) := by
  induction ns generalizing start with
  | nil => exact h'.mono h
  | cons n ns ih => exact ⟨h.1, h.2.1, ih h.2.2⟩

theorem Laid.of_mem (h : Laid start stop ns) {n : Node} (hn : n ∈ ns) :
    start ≤ n.start ∧ n.start ≤ n.stop ∧ n.stop ≤ stop := by
  induction ns generalizing start with
  | nil => exact absurd hn List.not_mem_nil
  | cons m ns ih =>
    obtain ⟨hStart, hForward, hRest⟩ := h
    rcases List.mem_cons.1 hn with rfl | hn
    · exact ⟨hStart, hForward, hRest.le⟩
    · have := ih hRest hn
      omega

theorem Laid.pairwise (h : Laid start stop ns) : ns.Pairwise fun n m => n.stop ≤ m.start := by
  induction ns generalizing start with
  | nil => exact List.Pairwise.nil
  | cons n ns ih =>
    obtain ⟨-, -, hRest⟩ := h
    exact List.pairwise_cons.2 ⟨fun m hm => (hRest.of_mem hm).1, ih hRest⟩

/-! ### Well-formed trees -/

def Nested (ns : List Node) : Prop := ∀ n ∈ preorderAll ns, Laid n.start n.stop n.children

theorem nested_nil : Nested [] := fun n hn => by
  rw [preorderAll] at hn
  exact absurd hn List.not_mem_nil

theorem nested_cons {n : Node} :
    Nested (n :: ns) ↔ Laid n.start n.stop n.children ∧ Nested n.children ∧ Nested ns := by
  rw [Nested, preorderAll, preorder_eq, List.cons_append, List.forall_mem_cons,
    List.forall_mem_append]
  exact Iff.rfl

theorem nested_append : Nested (ns ++ ms) ↔ Nested ns ∧ Nested ms := by
  rw [Nested, preorderAll_append, List.forall_mem_append]
  exact Iff.rfl

/-- A tree of a text: children lie in order inside their parents, and no offset cuts a character. -/
structure WellFormed (text : List Char) (root : Node) : Prop where
  forward : root.start ≤ root.stop
  nested : ∀ n ∈ root.preorder, Laid n.start n.stop n.children
  boundary : ∀ n ∈ root.preorder, Utf8.IsBoundary text n.start ∧ Utf8.IsBoundary text n.stop

instance (text : List Char) (root : Node) : Decidable (root.WellFormed text) :=
  decidable_of_iff
    (root.start ≤ root.stop ∧ (∀ n ∈ root.preorder, Laid n.start n.stop n.children) ∧
      ∀ n ∈ root.preorder, Utf8.IsBoundary text n.start ∧ Utf8.IsBoundary text n.stop)
    ⟨fun h => ⟨h.1, h.2.1, h.2.2⟩, fun h => ⟨h.forward, h.nested, h.boundary⟩⟩

theorem preorderAll_singleton (n : Node) : preorderAll [n] = n.preorder := by
  rw [preorderAll, preorderAll, List.append_nil]

namespace WellFormed

variable {text : List Char} {root n : Node}

theorem nested_root (h : root.WellFormed text) : Nested [root] := fun n hn =>
  h.nested n (preorderAll_singleton root ▸ hn)

end WellFormed

/-! ### Nodes that are tokens -/

mutual

def leaves (n : Node) : List Node :=
  match n with
  | ⟨kind, named, start, stop, children⟩ =>
    if isComment ⟨kind, named, start, stop, children⟩ then []
    else if isOpen ⟨kind, named, start, stop, children⟩ then leavesAll children
    else if stop ≤ start then []
    else [⟨kind, named, start, stop, children⟩]

def leavesAll : List Node → List Node
  | [] => []
  | n :: ns => leaves n ++ leavesAll ns

end

theorem leaves_eq (n : Node) : n.leaves = if n.isComment then [] else
    if n.isOpen then leavesAll n.children else if n.stop ≤ n.start then [] else [n] := by
  obtain ⟨kind, named, start, stop, children⟩ := n
  rw [leaves]

@[simp] theorem leavesAll_append (ns ms : List Node) :
    leavesAll (ns ++ ms) = leavesAll ns ++ leavesAll ms := by
  induction ns with
  | nil => rw [leavesAll]; rfl
  | cons n ns ih => rw [List.cons_append, leavesAll, leavesAll, ih, List.append_assoc]

/-- **The work list gives the tokens node by node.** -/
theorem tokensOf_eq (ns : List Node) : tokensOf ns = leavesAll ns := by
  fun_induction tokensOf ns with
  | case1 => rw [leavesAll]
  | case2 n rest hComment ih => rw [leavesAll, leaves_eq, if_pos hComment, ih]; rfl
  | case3 n rest hComment hOpen ih =>
    rw [leavesAll, leaves_eq, if_neg hComment, if_pos hOpen, ih, leavesAll_append]
  | case4 n rest hComment hOpen hEmpty ih =>
    rw [leavesAll, leaves_eq, if_neg hComment, if_neg hOpen, if_pos hEmpty, ih]
    rfl
  | case5 n rest hComment hOpen hEmpty ih =>
    rw [leavesAll, leaves_eq, if_neg hComment, if_neg hOpen, if_neg hEmpty, ih]
    rfl

/-- **Tokens are laid where their nodes are.** -/
theorem laid_tokensOf (hNested : Nested ns) (h : Laid start stop ns) :
    Laid start stop (tokensOf ns) := by
  fun_induction tokensOf ns generalizing start with
  | case1 => exact h
  | case2 n rest _ ih =>
    exact ih (nested_cons.1 hNested).2.2 (h.2.2.mono (Nat.le_trans h.1 h.2.1))
  | case3 n rest _ _ ih =>
    obtain ⟨hLaid, hBelow, hRest⟩ := nested_cons.1 hNested
    exact ih (nested_append.2 ⟨hBelow, hRest⟩) ((hLaid.mono h.1).append h.2.2)
  | case4 n rest _ _ _ ih =>
    exact ih (nested_cons.1 hNested).2.2 (h.2.2.mono (Nat.le_trans h.1 h.2.1))
  | case5 n rest _ _ _ ih => exact ⟨h.1, h.2.1, ih (nested_cons.1 hNested).2.2 h.2.2⟩

theorem of_mem_tokensOf {n : Node} (h : n ∈ tokensOf ns) : n ∈ preorderAll ns ∧ n.start < n.stop := by
  fun_induction tokensOf ns with
  | case1 => exact absurd h List.not_mem_nil
  | case2 m rest _ ih =>
    have := ih h
    exact ⟨by rw [preorderAll]; exact List.mem_append_right _ this.1, this.2⟩
  | case3 m rest _ _ ih =>
    obtain ⟨hMem, hLt⟩ := ih h
    rw [preorderAll_append] at hMem
    rw [preorderAll, preorder_eq]
    exact ⟨List.mem_cons_of_mem m hMem, hLt⟩
  | case4 m rest _ _ _ ih =>
    have := ih h
    exact ⟨by rw [preorderAll]; exact List.mem_append_right _ this.1, this.2⟩
  | case5 m rest _ _ hEmpty ih =>
    rw [preorderAll, preorder_eq]
    rcases List.mem_cons.1 h with rfl | h
    · exact ⟨List.mem_cons_self, Nat.lt_of_not_le hEmpty⟩
    · have := ih h
      exact ⟨List.mem_append_right _ this.1, this.2⟩

end Node

/-! ### Searching in order -/

section Search

variable {xs ys : List Int} {x : Int}

theorem lowerBound_append (h : ∀ a ∈ xs, a < x) (h' : ∀ b ∈ ys, x ≤ b) :
    lowerBound (xs ++ ys) x = xs.length := by
  rw [lowerBound, List.length_append]
  refine partitionPoint_eq (Nat.zero_le _) (Nat.le_add_right ..) ?_ ?_
  · intro i _ hi
    rw [List.getD_eq_getElem?_getD, List.getElem?_append_left hi, List.getElem?_eq_getElem hi]
    exact decide_eq_true (h _ (List.getElem_mem hi))
  · intro i hi hi'
    have hIndex : i - xs.length < ys.length := by omega
    rw [List.getD_eq_getElem?_getD, List.getElem?_append_right hi, List.getElem?_eq_getElem hIndex]
    exact decide_eq_false (Int.not_lt.2 (h' _ (List.getElem_mem _)))

theorem upperBound_append (h : ∀ a ∈ xs, a ≤ x) (h' : ∀ b ∈ ys, x < b) :
    upperBound (xs ++ ys) x = xs.length := by
  rw [upperBound, List.length_append]
  refine partitionPoint_eq (Nat.zero_le _) (Nat.le_add_right ..) ?_ ?_
  · intro i _ hi
    rw [List.getD_eq_getElem?_getD, List.getElem?_append_left hi, List.getElem?_eq_getElem hi]
    exact decide_eq_true (h _ (List.getElem_mem hi))
  · intro i hi hi'
    have hIndex : i - xs.length < ys.length := by omega
    rw [List.getD_eq_getElem?_getD, List.getElem?_append_right hi, List.getElem?_eq_getElem hIndex]
    exact decide_eq_false (Int.not_le.2 (h' _ (List.getElem_mem _)))

end Search

namespace Source

variable {s : Source} {front back : List Token} {t u : Token} {x : Int}

theorem after?_append (hTokens : s.tokens = front ++ back) (h : ∀ t ∈ front, t.start < x)
    (h' : ∀ t ∈ back, x ≤ t.start) : s.after? x = back.head? := by
  rw [after?, starts, hTokens, List.map_append, lowerBound_append, List.length_map,
    List.getElem?_append_right (Nat.le_refl _), Nat.sub_self, List.head?_eq_getElem?]
  · exact List.forall_mem_map.2 h
  · exact List.forall_mem_map.2 h'

theorem before?_append (hTokens : s.tokens = front ++ back) (h : ∀ t ∈ front, t.stop ≤ x)
    (h' : ∀ t ∈ back, x < t.stop) : s.before? x = front.getLast? := by
  rw [before?, stops, hTokens, List.map_append, upperBound_append (List.forall_mem_map.2 h)
    (List.forall_mem_map.2 h'), List.length_map]
  rcases List.eq_nil_or_concat front with rfl | ⟨front, t, rfl⟩
  · rfl
  · rw [List.concat_eq_append, List.length_append, List.getLast?_append]
    show (front ++ [t] ++ back)[front.length]? = _
    rw [List.append_assoc, List.getElem?_append_right (Nat.le_refl _), Nat.sub_self]
    rfl

structure Orderly (s : Source) : Prop where
  apart : s.tokens.Pairwise fun t u => t.stop ≤ u.start
  forward : ∀ t ∈ s.tokens, t.start < t.stop

def Adjacent (s : Source) (left right : Token) : Prop :=
  ∃ front back, s.tokens = front ++ left :: right :: back

theorem Adjacent.left_mem (h : s.Adjacent t u) : t ∈ s.tokens := by
  obtain ⟨front, back, hTokens⟩ := h
  rw [hTokens]
  exact List.mem_append_right front List.mem_cons_self

theorem Adjacent.right_mem (h : s.Adjacent t u) : u ∈ s.tokens := by
  obtain ⟨front, back, hTokens⟩ := h
  rw [hTokens]
  exact List.mem_append_right front (List.mem_cons_of_mem t List.mem_cons_self)

namespace Orderly

variable (h : s.Orderly)
include h

theorem cut (hTokens : s.tokens = front ++ t :: back) :
    (∀ u ∈ front, u.stop ≤ t.start ∧ u.start < u.stop) ∧ t.start < t.stop ∧
      ∀ u ∈ back, t.stop ≤ u.start ∧ u.start < u.stop := by
  have hApart := h.apart
  have hForward := h.forward
  rw [hTokens] at hApart hForward
  rw [List.pairwise_append, List.pairwise_cons] at hApart
  rw [List.forall_mem_append, List.forall_mem_cons] at hForward
  obtain ⟨-, ⟨hBack, -⟩, hFront⟩ := hApart
  exact ⟨fun u hu => ⟨hFront u hu t List.mem_cons_self, hForward.1 u hu⟩, hForward.2.1,
    fun u hu => ⟨hBack u hu, hForward.2.2 u hu⟩⟩

theorem after?_stop (hTokens : s.tokens = front ++ t :: back) : s.after? t.stop = back.head? := by
  obtain ⟨hFront, hToken, hBack⟩ := h.cut hTokens
  have hCut : s.tokens = front ++ [t] ++ back := by rw [hTokens, List.append_assoc]; rfl
  refine after?_append hCut ?_ fun u hu => (hBack u hu).1
  intro u hu
  rcases List.mem_append.1 hu with hu | hu
  · have := hFront u hu
    omega
  · rw [List.mem_singleton.1 hu]
    exact hToken

theorem before?_start (hTokens : s.tokens = front ++ t :: back) :
    s.before? t.start = front.getLast? := by
  obtain ⟨hFront, hToken, hBack⟩ := h.cut hTokens
  refine before?_append hTokens (fun u hu => (hFront u hu).1) ?_
  intro u hu
  rcases List.mem_cons.1 hu with rfl | hu
  · exact hToken
  · have := hBack u hu
    omega

theorem after?_of_adjacent (hAdjacent : s.Adjacent t u) : s.after? t.stop = some u := by
  obtain ⟨front, back, hTokens⟩ := hAdjacent
  exact h.after?_stop hTokens

theorem before?_of_adjacent (hAdjacent : s.Adjacent t u) : s.before? u.start = some t := by
  obtain ⟨front, back, hTokens⟩ := hAdjacent
  have hCut : s.tokens = (front ++ [t]) ++ u :: back := by rw [hTokens, List.append_assoc]; rfl
  rw [h.before?_start hCut, List.getLast?_append]
  rfl

theorem adjacent_after (ht : t ∈ s.tokens) (hAfter : s.after? t.stop = some u) : s.Adjacent t u := by
  obtain ⟨front, back, hTokens⟩ := List.append_of_mem ht
  rw [h.after?_stop hTokens] at hAfter
  obtain ⟨back, rfl⟩ := List.head?_eq_some_iff.1 hAfter
  exact ⟨front, back, hTokens⟩

theorem adjacent_before (hu : u ∈ s.tokens) (hBefore : s.before? u.start = some t) :
    s.Adjacent t u := by
  obtain ⟨front, back, hTokens⟩ := List.append_of_mem hu
  rw [h.before?_start hTokens] at hBefore
  obtain ⟨front, rfl⟩ := List.getLast?_eq_some_iff.1 hBefore
  rw [List.append_assoc] at hTokens
  exact ⟨front, back, hTokens⟩

/-- The gap of neighbours, and that no token reaches into it. -/
theorem of_adjacent (hAdjacent : s.Adjacent t u) :
    t.stop ≤ u.start ∧ ∀ a ∈ s.tokens, a.stop ≤ t.stop ∨ u.start ≤ a.start := by
  obtain ⟨front, back, hTokens⟩ := hAdjacent
  obtain ⟨hFront, hLeft, hBack⟩ := h.cut hTokens
  have hCut : s.tokens = front ++ [t] ++ u :: back := by rw [hTokens, List.append_assoc]; rfl
  obtain ⟨-, -, hRight⟩ := h.cut hCut
  refine ⟨(hBack u List.mem_cons_self).1, fun a ha => ?_⟩
  rw [hTokens] at ha
  rcases List.mem_append.1 ha with ha | ha
  · have := hFront a ha
    omega
  · rcases List.mem_cons.1 ha with rfl | ha
    · exact Or.inl (Int.le_refl _)
    · rcases List.mem_cons.1 ha with rfl | ha
      · exact Or.inr (Int.le_refl _)
      · have := hRight a ha
        have := h.forward u (Adjacent.right_mem ⟨front, back, hTokens⟩)
        omega

end Orderly

/-! ### Sources of well-formed trees -/

theorem tokens_ofText (text : List Char) (root : Node) :
    (Source.ofText text (some root)).tokens =
      root.leaves.map fun n => (Buffer.ofText text).token n.kind n.start n.stop := by
  show (Node.tokensOf [root]).map _ = _
  rw [Node.tokensOf_eq, Node.leavesAll, Node.leavesAll, List.append_nil]

/-- Where children are laid inside their parents, tokens are in order; characters do not matter. -/
theorem orderly_of_nested (text : List Char) {root : Node} (hForward : root.start ≤ root.stop)
    (hNested : Node.Nested [root]) : (Source.ofText text (some root)).Orderly := by
  have hRoot : Node.Laid root.start root.stop [root] := ⟨Nat.le_refl _, hForward, Nat.le_refl _⟩
  have hLaid := Node.laid_tokensOf hNested hRoot
  refine ⟨List.pairwise_map.2 (hLaid.pairwise.imp fun hLe => Int.ofNat_le.2 hLe), ?_⟩
  refine List.forall_mem_map.2 fun n hn => ?_
  exact Int.ofNat_lt.2 (Node.of_mem_tokensOf hn).2

section OfText

variable {text : List Char} {root : Node} (h : root.WellFormed text)
include h

/-- **The tokens of a well-formed tree are in order and do not overlap.** -/
theorem orderly_ofText : (Source.ofText text (some root)).Orderly :=
  orderly_of_nested text h.forward h.nested_root

theorem boundary_of_mem (ht : t ∈ (Source.ofText text (some root)).tokens) :
    ∃ start stop : Nat, t.start = start ∧ t.stop = stop ∧ Utf8.IsBoundary text start ∧
      Utf8.IsBoundary text stop := by
  obtain ⟨n, hn, rfl⟩ := List.mem_map.1 ht
  have hNode := (Node.of_mem_tokensOf hn).1
  rw [Node.preorderAll_singleton] at hNode
  exact ⟨n.start, n.stop, rfl, rfl, (h.boundary n hNode).1, (h.boundary n hNode).2⟩

end OfText

end Source

/-! ### Pairs that are checked -/

namespace CurlySpacing

variable {s : Source} {o : CurlyOptions} {kind : ConstructKind} {t : Braces} {left right : Token}
  {must : Bool} {brace : Int}

/-- **A pair that the rule looks at is a pair of neighbours.** -/
theorem Checked.adjacent (hOrderly : s.Orderly) (hFound : Found s t)
    (h : Checked o kind t left right must brace) : s.Adjacent left right := by
  cases h with
  | opening => exact hOrderly.adjacent_after hFound.opening_mem hFound.second
  | closing => exact hOrderly.adjacent_before hFound.closing_mem hFound.penultimate

theorem Checked.brace_eq (h : Checked o kind t left right must brace) :
    brace = left.stop ∨ brace = right.start := by
  cases h with
  | opening => exact Or.inl rfl
  | closing => exact Or.inr rfl

end CurlySpacing

end TidySpace
