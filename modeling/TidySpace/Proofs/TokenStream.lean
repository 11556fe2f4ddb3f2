import TidySpace.Proofs.Tokens

/-! # The token stream

The tokens of a tree are found by a work list, which knows of a node only that it is still to be looked
at. Seen from the tree, they are its nodes in preorder, of which a condition on the node and on those
above it selects some (`leaves_eq_tokensAmong`): a token is a leaf that is not empty, and neither in a
comment nor below a node that counts as a leaf itself.

Where the tree is laid, the four queries are binary searches over lists that increase. Each one divides
the stream at an offset, and so ends at the first or the last of the tokens that it is asked for
(`firstIn?_eq`, `lastIn?_eq`, `before?_eq`, `after?_eq`).
-/

namespace TidySpace

namespace Node

/-! ### Nodes with those above them -/

mutual

/-- The node and all nodes below it in preorder, each with the nodes above it, the nearest first. -/
def trails (above : List Node) (n : Node) : List (Node × List Node) :=
  match n with
  | ⟨kind, named, start, stop, children⟩ =>
    (⟨kind, named, start, stop, children⟩, above) ::
      trailsAll (⟨kind, named, start, stop, children⟩ :: above) children

def trailsAll (above : List Node) : List Node → List (Node × List Node)
  | [] => []
  | n :: ns => trails above n ++ trailsAll above ns

end

theorem trails_eq (above : List Node) (n : Node) :
    trails above n = (n, above) :: trailsAll (n :: above) n.children := by
  obtain ⟨kind, named, start, stop, children⟩ := n
  rw [trails]

mutual

theorem map_fst_trails (above : List Node) (n : Node) :
    (trails above n).map Prod.fst = n.preorder := by
  match n with
  | ⟨kind, named, start, stop, children⟩ =>
    rw [trails, preorder, List.map_cons, map_fst_trailsAll]

theorem map_fst_trailsAll (above ns : List Node) :
    (trailsAll above ns).map Prod.fst = preorderAll ns := by
  match ns with
  | [] => rw [trailsAll, preorderAll]; rfl
  | n :: ns => rw [trailsAll, preorderAll, List.map_append, map_fst_trails, map_fst_trailsAll]

end

/-! ### Tokens by what is above them -/

/-- Nodes into which the tokens of a tree do not go: comments, and atomic nodes. -/
def isClosed (n : Node) : Bool := n.isComment || n.isAtomic

/-- A token is a node that is no comment and not empty, has no children or is atomic, and has neither
comments nor atomic nodes above it. -/
def isTokenBelow (n : Node) (above : List Node) : Bool :=
  !n.isComment && (n.children.isEmpty || n.isAtomic) && decide (n.start < n.stop) &&
    above.all fun m => !m.isClosed

/-- The nodes that count as tokens, among nodes with those above them. -/
def tokensAmong (trails : List (Node × List Node)) : List Node :=
  (trails.filter fun t => t.1.isTokenBelow t.2).map Prod.fst

theorem tokensAmong_append (ts us : List (Node × List Node)) :
    tokensAmong (ts ++ us) = tokensAmong ts ++ tokensAmong us := by
  rw [tokensAmong, List.filter_append, List.map_append]
  rfl

theorem tokensAmong_cons (n : Node) (above : List Node) (ts : List (Node × List Node)) :
    tokensAmong ((n, above) :: ts) =
      (if n.isTokenBelow above then [n] else []) ++ tokensAmong ts := by
  rw [tokensAmong, List.filter_cons]
  split
  next => rfl
  next => rfl

/-- A node that is open is no token, and those below it are looked at; any other node is a token, or
none is there. -/
theorem tokensAmong_trails_of_below (above : List Node) (n : Node)
    (hBelow : tokensAmong (trailsAll (n :: above) n.children) =
      if (n :: above).all fun m => !m.isClosed then leavesAll n.children else []) :
    tokensAmong (trails above n) = if above.all fun m => !m.isClosed then n.leaves else [] := by
  rw [trails_eq, tokensAmong_cons, hBelow, leaves_eq, isTokenBelow, List.all_cons, isClosed, isOpen]
  cases hAbove : above.all fun m => !m.isClosed with
  | false => simp
  | true =>
    cases hComment : n.isComment with
    | true => simp
    | false =>
      -- What is left of both sides is whether the node has a width.
      have hWidth : (if n.start < n.stop then [n] else []) = if n.stop ≤ n.start then [] else [n] := by
        by_cases hEmpty : n.stop ≤ n.start
        · rw [if_pos hEmpty, if_neg (Nat.not_lt.2 hEmpty)]
        · rw [if_neg hEmpty, if_pos (Nat.not_le.1 hEmpty)]
      cases hAtomic : n.isAtomic with
      | true => simpa using hWidth
      | false =>
        cases hChildren : n.children with
        | nil => simpa [leavesAll] using hWidth
        | cons child rest => simp

mutual

theorem tokensAmong_trails (above : List Node) (n : Node) :
    tokensAmong (trails above n) = if above.all fun m => !m.isClosed then n.leaves else [] := by
  match n with
  | ⟨kind, named, start, stop, children⟩ =>
    exact tokensAmong_trails_of_below _ _ (tokensAmong_trailsAll _ children)

theorem tokensAmong_trailsAll (above ns : List Node) :
    tokensAmong (trailsAll above ns) =
      if above.all fun m => !m.isClosed then leavesAll ns else [] := by
  match ns with
  | [] => rw [trailsAll, leavesAll, ite_self]; rfl
  | n :: ns =>
    rw [trailsAll, tokensAmong_append, tokensAmong_trails, tokensAmong_trailsAll, leavesAll]
    split
    next => rfl
    next => rfl

end

/-- **The tokens of a tree** are the nodes in preorder that count as tokens below those above them. -/
theorem leaves_eq_tokensAmong (root : Node) : root.leaves = tokensAmong (root.trails []) := by
  rw [tokensAmong_trails]
  rfl

end Node

/-! ### Dividing a list -/

section Divided

variable {α : Type} {p : α → Bool} {a : α} {xs : List α}

/-- A property that passes to what stands before holds of nothing behind an item that lacks it. -/
theorem filter_eq_nil_of_head (h : (a :: xs).Pairwise fun a b => p b → p a) (ha : p a = false) :
    xs.filter p = [] := by
  refine List.filter_eq_nil_iff.2 fun b hb hp => ?_
  rw [(List.pairwise_cons.1 h).1 b hb hp] at ha
  cases ha

/-- A property that passes to what stands before divides the list. -/
theorem eq_filter_append (h : xs.Pairwise fun a b => p b → p a) :
    xs = xs.filter p ++ xs.filter fun a => !p a := by
  induction xs with
  | nil => rfl
  | cons a xs ih =>
    have hTail := ih (List.pairwise_cons.1 h).2
    cases ha : p a with
    | true =>
      rw [List.filter_cons_of_pos ha, List.filter_cons_of_neg (by simp [ha]), List.cons_append,
        ← hTail]
    | false =>
      rw [filter_eq_nil_of_head h ha, List.nil_append] at hTail
      rw [List.filter_cons_of_neg (by simp [ha]), List.filter_cons_of_pos (by simp [ha]),
        filter_eq_nil_of_head h ha, ← hTail, List.nil_append]

theorem filter_head? (h : xs.Pairwise fun a b => p b → p a) :
    xs.head?.filter p = (xs.filter p).head? := by
  cases xs with
  | nil => rfl
  | cons a xs =>
    rw [List.head?_cons, Option.filter_some]
    cases ha : p a with
    | true => rw [List.filter_cons_of_pos ha, List.head?_cons, if_pos rfl]
    | false =>
      rw [List.filter_cons_of_neg (by simp [ha]), filter_eq_nil_of_head h ha,
        if_neg Bool.false_ne_true]
      rfl

theorem filter_getLast? (h : xs.Pairwise fun a b => p a → p b) :
    xs.getLast?.filter p = (xs.filter p).getLast? := by
  have hReverse : xs.reverse.Pairwise fun a b => p b → p a := List.pairwise_reverse.2 h
  rw [← List.head?_reverse, filter_head? hReverse, List.filter_reverse, List.head?_reverse]

end Divided

/-! ### The four queries -/

def Token.isIn (start stop : Int) (t : Token) : Bool :=
  decide (start ≤ t.start) && decide (t.stop ≤ stop)

namespace Source.Orderly

variable {s : Source} (h : s.Orderly)
include h

theorem increasing : s.tokens.Pairwise fun t u => t.start < u.start ∧ t.stop < u.stop := by
  refine h.apart.imp_of_mem fun {t u} ht hu hApart => ?_
  have := h.forward t ht
  have := h.forward u hu
  omega

theorem after?_eq (x : Int) : s.after? x = (s.tokens.filter fun t => decide (x ≤ t.start)).head? := by
  have hCut : s.tokens = s.tokens.filter (fun t => decide (t.start < x)) ++
      s.tokens.filter fun t => !decide (t.start < x) := by
    refine eq_filter_append (h.increasing.imp fun {t u} hLt hu => ?_)
    have := of_decide_eq_true hu
    exact decide_eq_true (by omega)
  have hNot : (fun t : Token => !decide (t.start < x)) = fun t => decide (x ≤ t.start) := by
    funext t
    rw [← decide_not, decide_eq_decide]
    exact Int.not_lt
  rw [hNot] at hCut
  refine after?_append hCut ?_ ?_
  · exact fun t ht => of_decide_eq_true (List.mem_filter.1 ht).2
  · exact fun t ht => of_decide_eq_true (List.mem_filter.1 ht).2

theorem before?_eq (x : Int) :
    s.before? x = (s.tokens.filter fun t => decide (t.stop ≤ x)).getLast? := by
  have hCut : s.tokens = s.tokens.filter (fun t => decide (t.stop ≤ x)) ++
      s.tokens.filter fun t => !decide (t.stop ≤ x) := by
    refine eq_filter_append (h.increasing.imp fun {t u} hLt hu => ?_)
    have := of_decide_eq_true hu
    exact decide_eq_true (by omega)
  refine before?_append hCut ?_ ?_
  · exact fun t ht => of_decide_eq_true (List.mem_filter.1 ht).2
  · intro t ht
    have hNot := (List.mem_filter.1 ht).2
    rw [Bool.not_eq_true', decide_eq_false_iff_not] at hNot
    omega

theorem firstIn?_eq (start stop : Int) :
    s.firstIn? start stop = (s.tokens.filter (Token.isIn start stop)).head? := by
  show (s.after? start).filter _ = _
  rw [h.after?_eq, filter_head?, List.filter_filter]
  · congr 2
    funext t
    exact Bool.and_comm _ _
  · refine (h.increasing.filter _).imp fun {t u} hLt hu => ?_
    have := of_decide_eq_true hu
    exact decide_eq_true (by omega)

theorem lastIn?_eq (start stop : Int) :
    s.lastIn? start stop = (s.tokens.filter (Token.isIn start stop)).getLast? := by
  rw [lastIn?, h.before?_eq, filter_getLast?, List.filter_filter]
  · rfl
  · refine (h.increasing.filter _).imp fun {t u} hLt ht => ?_
    have := of_decide_eq_true ht
    exact decide_eq_true (by omega)

end Source.Orderly

theorem Source.adjacent_getElem {s : Source} {i : Nat} (hi : i + 1 < s.tokens.length) :
    s.Adjacent s.tokens[i] s.tokens[i + 1] := by
  refine ⟨s.tokens.take i, s.tokens.drop (i + 2), ?_⟩
  rw [← List.drop_eq_getElem_cons hi, ← List.drop_eq_getElem_cons (Nat.lt_of_succ_lt hi),
    List.take_append_drop]

/-- The tokens of a source lead to their neighbours, which they do not overlap, and every query for a
range or an offset ends at the first or the last of the tokens that it is meant to find. -/
structure Source.Navigable (s : Source) : Prop where
  apart : ∀ i (hi : i + 1 < s.tokens.length), s.tokens[i].stop ≤ s.tokens[i + 1].start
  next : ∀ i (hi : i + 1 < s.tokens.length), s.after? s.tokens[i].stop = some s.tokens[i + 1]
  previous : ∀ i (hi : i + 1 < s.tokens.length), s.before? s.tokens[i + 1].start = some s.tokens[i]
  firstIn : ∀ start stop : Int,
    s.firstIn? start stop = (s.tokens.filter (Token.isIn start stop)).head?
  lastIn : ∀ start stop : Int,
    s.lastIn? start stop = (s.tokens.filter (Token.isIn start stop)).getLast?
  before : ∀ x : Int, s.before? x = (s.tokens.filter fun t => decide (t.stop ≤ x)).getLast?
  after : ∀ x : Int, s.after? x = (s.tokens.filter fun t => decide (x ≤ t.start)).head?

theorem Source.Orderly.navigable {s : Source} (h : s.Orderly) : s.Navigable where
  apart _ hi := (h.of_adjacent (adjacent_getElem hi)).1
  next _ hi := h.after?_of_adjacent (adjacent_getElem hi)
  previous _ hi := h.before?_of_adjacent (adjacent_getElem hi)
  firstIn := h.firstIn?_eq
  lastIn := h.lastIn?_eq
  before := h.before?_eq
  after := h.after?_eq

/-- **The tokens of a tree, and what is asked of them.** In a tree whose children lie in order inside
their parents, the tokens are the nodes in preorder that are leaves, or count as such, and neither empty
nor in a comment. Each one leads to its neighbours, and the queries end at the first and the last token
in a range, at the last one by an offset, and at the first one from an offset on. -/
theorem Source.tokens_navigable (text : List Char) (root : Node) (hForward : root.start ≤ root.stop)
    (hLaid : ∀ n ∈ root.preorder, Node.Laid n.start n.stop n.children) :
    (root.trails []).map Prod.fst = root.preorder ∧
    (ofText text (some root)).tokens =
      (Node.tokensAmong (root.trails [])).map
        (fun n => (Buffer.ofText text).token n.kind n.start n.stop) ∧
    (ofText text (some root)).Navigable := by
  have hNested : Node.Nested [root] := fun n hn => hLaid n (Node.preorderAll_singleton root ▸ hn)
  have hOrderly : (ofText text (some root)).Orderly := orderly_of_nested text hForward hNested
  refine ⟨Node.map_fst_trails [] root, ?_, hOrderly.navigable⟩
  rw [tokens_ofText, Node.leaves_eq_tokensAmong]

def callTree : Node :=
  ⟨"program", true, 0, 15, [⟨"expression_statement", true, 0, 15, [
    ⟨"call_expression", true, 0, 15, [⟨"identifier", true, 0, 1, []⟩,
      ⟨"arguments", true, 1, 15, [⟨"(", false, 1, 2, []⟩, ⟨"comment", true, 2, 7, []⟩,
        ⟨"string", true, 7, 10, [⟨"'", false, 7, 8, []⟩, ⟨"string_fragment", true, 8, 9, []⟩,
          ⟨"'", false, 9, 10, []⟩]⟩,
        ⟨",", false, 10, 11, []⟩, ⟨"template_string", true, 11, 14, [⟨"`", false, 11, 12, []⟩,
          ⟨"`", false, 13, 14, []⟩]⟩,
        ⟨")", false, 14, 15, []⟩]⟩]⟩,
    ⟨";", false, 15, 15, []⟩]⟩]⟩

/-- The comment, what is in the string and in the template, and the empty node are no tokens; the range
that begins with the comment holds the string first, and the comma last. -/
theorem Source.tokens_navigable_call :
    (callTree.start ≤ callTree.stop ∧
      ∀ n ∈ callTree.preorder, Node.Laid n.start n.stop n.children) ∧
    (ofText "x(/*n*/'s',`t`)".toList (some callTree)).tokens.map (fun t => (t.kind, t.start, t.stop)) =
      [("identifier", 0, 1), ("(", 1, 2), ("string", 7, 10), (",", 10, 11), ("template_string", 11, 14),
        (")", 14, 15)] ∧
    ((ofText "x(/*n*/'s',`t`)".toList (some callTree)).firstIn? 2 11).map Token.kind = some "string" ∧
    ((ofText "x(/*n*/'s',`t`)".toList (some callTree)).lastIn? 2 11).map Token.kind = some "," := by
  have hLaid : ∀ n ∈ callTree.preorder, Node.Laid n.start n.stop n.children := by decide
  obtain ⟨-, hTokens, hNavigable⟩ :=
    tokens_navigable "x(/*n*/'s',`t`)".toList callTree (by decide) hLaid
  refine ⟨⟨by decide, hLaid⟩, ?_, ?_, ?_⟩
  · rw [hTokens]
    rfl
  · rw [hNavigable.firstIn, hTokens]
    rfl
  · rw [hNavigable.lastIn, hTokens]
    rfl

end TidySpace
