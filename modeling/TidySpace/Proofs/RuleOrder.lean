import TidySpace.Proofs.Passes
import TidySpace.Proofs.Reports

/-! # The order of rules

Findings are sorted by the start of their range and then by rule. Where no two rules have one id and
each rule reports under its own, findings that tie are of one rule, and stand in the order in which this
rule reports them. The sort is stable, so it does not matter in which order the rules are asked
(`Finding.sort_of_perm`). An analysis depends on the order of its rules in no other way
(`Analysis.run_of_perm`), and fixing only through its analyses (`Fixing.passesFrom_of_ok`).
-/

namespace TidySpace

/-! ### Stable sorting -/

section Sorting

variable {α : Type} {le : α → α → Bool} {a : α} {xs ys : List α}

/-- Whether an order leaves open which of two items comes first. -/
def ties (le : α → α → Bool) (a b : α) : Bool := le a b && le b a

theorem ties_iff {b : α} : ties le a b ↔ le a b ∧ le b a := by
  rw [ties, Bool.and_eq_true]

section Total

variable (hTotal : ∀ a b, (le a b || le b a) = true)
include hTotal

theorem ties_self (a : α) : ties le a a := by
  have hLe := hTotal a a
  rw [Bool.or_self] at hLe
  exact ties_iff.2 ⟨hLe, hLe⟩

/-- A sorted list with the items that tie with `a` begins with `a` or something before it. -/
theorem exists_head_of_ties (hSorted : ys.Pairwise fun a b => le a b)
    (h : (a :: xs).filter (ties le a) = ys.filter (ties le a)) :
    ∃ b zs, ys = b :: zs ∧ le b a := by
  have ha : a ∈ ys := by
    refine List.mem_of_mem_filter (p := ties le a) ?_
    rw [← h, List.filter_cons_of_pos (ties_self hTotal a)]
    exact List.mem_cons_self
  cases ys with
  | nil => exact absurd ha List.not_mem_nil
  | cons b zs =>
    refine ⟨b, zs, rfl, ?_⟩
    rcases List.mem_cons.1 ha with rfl | ha
    · exact (ties_iff.1 (ties_self hTotal a)).1
    · exact (List.pairwise_cons.1 hSorted).1 a ha

/-- Sorted lists are equal if they have the same items that tie with any given one, in one order. -/
theorem eq_of_ties (hxs : xs.Pairwise fun a b => le a b) (hys : ys.Pairwise fun a b => le a b)
    (h : ∀ a, xs.filter (ties le a) = ys.filter (ties le a)) : xs = ys := by
  induction xs generalizing ys with
  | nil =>
    cases ys with
    | nil => rfl
    | cons b ys =>
      obtain ⟨_, _, hEq, -⟩ := exists_head_of_ties hTotal hxs (h b).symm
      cases hEq
  | cons a xs ih =>
    obtain ⟨b, ys, rfl, hBefore⟩ := exists_head_of_ties hTotal hys (h a)
    obtain ⟨_, _, hEq, hAfter⟩ := exists_head_of_ties hTotal hxs (h b).symm
    cases hEq
    -- The heads tie, so each is the first item that ties with it.
    have hHere := h a
    rw [List.filter_cons_of_pos (ties_self hTotal a),
      List.filter_cons_of_pos (ties_iff.2 ⟨hAfter, hBefore⟩)] at hHere
    obtain ⟨rfl, -⟩ := List.cons.inj hHere
    congr 1
    refine ih (List.pairwise_cons.1 hxs).2 (List.pairwise_cons.1 hys).2 fun c => ?_
    have hThere := h c
    rw [List.filter_cons, List.filter_cons] at hThere
    split at hThere
    next => exact (List.cons.inj hThere).2
    next => exact hThere

end Total

variable (hTrans : ∀ a b c, le a b → le b c → le a c) (hTotal : ∀ a b, (le a b || le b a) = true)
include hTrans hTotal

/-- **A stable sort keeps the order of items that tie.** -/
theorem filter_mergeSort (a : α) : (xs.mergeSort le).filter (ties le a) = xs.filter (ties le a) := by
  have hTied : (xs.filter (ties le a)).Pairwise fun b c => le b c := by
    refine List.pairwise_of_forall_mem_list fun b hb c hc => ?_
    have hBack := (ties_iff.1 (List.mem_filter.1 hb).2).2
    exact hTrans b a c hBack (ties_iff.1 (List.mem_filter.1 hc).2).1
  have hSublist :=
    (List.sublist_mergeSort hTrans hTotal hTied List.filter_sublist).filter (ties le a)
  rw [List.filter_filter] at hSublist
  simp only [Bool.and_self] at hSublist
  exact (hSublist.eq_of_length ((List.mergeSort_perm xs le).filter _).length_eq.symm).symm

theorem mergeSort_of_ties (h : ∀ a, xs.filter (ties le a) = ys.filter (ties le a)) :
    xs.mergeSort le = ys.mergeSort le := by
  refine eq_of_ties hTotal (List.pairwise_mergeSort hTrans hTotal xs)
    (List.pairwise_mergeSort hTrans hTotal ys) fun a => ?_
  rw [filter_mergeSort hTrans hTotal, filter_mergeSort hTrans hTotal, h]

end Sorting

theorem flatMap_of_perm {ρ β : Type} {f : ρ → List β} {rs rs' : List ρ} (hPerm : rs.Perm rs')
    (h : rs.Pairwise fun r r' => f r = [] ∨ f r' = []) : rs.flatMap f = rs'.flatMap f := by
  induction hPerm with
  | nil => rfl
  | cons r _ ih => rw [List.flatMap_cons, List.flatMap_cons, ih (List.pairwise_cons.1 h).2]
  | swap r r' rest =>
    simp only [List.flatMap_cons]
    rcases (List.pairwise_cons.1 h).1 r List.mem_cons_self with hNil | hNil
    · rw [hNil, List.nil_append, List.nil_append]
    · rw [hNil, List.nil_append, List.nil_append]
  | trans hFirst _ ih ih' => rw [ih h, ih' (hFirst.pairwise h fun hOr => hOr.symm)]

/-! ### Findings -/

namespace Finding

variable {f g : Finding}

theorem before_iff : before f g ↔ f.start < g.start ∨ f.start = g.start ∧ f.rule ≤ g.rule := by
  rw [before, Bool.or_eq_true, Bool.and_eq_true, decide_eq_true_iff, decide_eq_true_iff, beq_iff_eq]

theorem before_trans (f g h : Finding) (hfg : before f g) (hgh : before g h) : before f h := by
  rw [before_iff] at *
  rcases hfg with hLt | ⟨hEq, hRule⟩
  · rcases hgh with hLt' | ⟨hEq', -⟩
    · exact Or.inl (Int.lt_trans hLt hLt')
    · exact Or.inl (hEq' ▸ hLt)
  · rcases hgh with hLt' | ⟨hEq', hRule'⟩
    · exact Or.inl (hEq ▸ hLt')
    · exact Or.inr ⟨hEq.trans hEq', String.le_trans hRule hRule'⟩

theorem before_total (f g : Finding) : (before f g || before g f) = true := by
  rw [Bool.or_eq_true, before_iff, before_iff]
  rcases Int.lt_trichotomy f.start g.start with hLt | hEq | hLt
  · exact Or.inl (Or.inl hLt)
  · rcases String.le_total f.rule g.rule with hRule | hRule
    · exact Or.inl (Or.inr ⟨hEq, hRule⟩)
    · exact Or.inr (Or.inr ⟨hEq.symm, hRule⟩)
  · exact Or.inr (Or.inl hLt)

theorem rule_eq_of_ties (h : ties before f g) : f.rule = g.rule := by
  obtain ⟨hfg, hgf⟩ := ties_iff.1 h
  rcases before_iff.1 hfg with hLt | ⟨hEq, hRule⟩
  · rcases before_iff.1 hgf with hLt' | ⟨hEq', -⟩
    · omega
    · omega
  · rcases before_iff.1 hgf with hLt' | ⟨-, hRule'⟩
    · omega
    · exact String.le_antisymm hRule hRule'

/-- **The order of rules is lost in the sort**, where each rule's findings bear an id of its own. -/
theorem sort_of_perm {rules rules' : List Rule} {found : Rule → List Finding} (text : List Char)
    (hPerm : rules.Perm rules') (hIds : (rules.map Rule.id).Nodup)
    (hOwn : ∀ rule ∈ rules, ∀ f ∈ found rule, f.rule = rule.id) :
    sort (unsuppressed text (rules.flatMap found)) =
      sort (unsuppressed text (rules'.flatMap found)) := by
  refine mergeSort_of_ties before_trans before_total fun g => ?_
  have hCommute (fs : List Finding) : (unsuppressed text fs).filter (ties before g) =
      unsuppressed text (fs.filter (ties before g)) := by
    rw [unsuppressed, unsuppressed, List.filter_filter, List.filter_filter]
    simp only [Bool.and_comm]
  rw [hCommute, hCommute, List.filter_flatMap, List.filter_flatMap]
  congr 1
  refine flatMap_of_perm hPerm ?_
  refine (List.pairwise_map.1 hIds).imp_of_mem fun {rule rule'} hRule hRule' hNe => ?_
  -- Two rules with findings that tie with `g` would both have its id.
  have hId : ∀ rule ∈ rules, (found rule).filter (ties before g) ≠ [] → rule.id = g.rule := by
    intro rule hRule hSome
    obtain ⟨f, hf⟩ := List.exists_mem_of_ne_nil _ hSome
    obtain ⟨hMem, hTies⟩ := List.mem_filter.1 hf
    rw [← hOwn rule hRule f hMem, rule_eq_of_ties hTies]
  by_contra hBoth
  rw [not_or] at hBoth
  exact hNe ((hId rule hRule hBoth.1).trans (hId rule' hRule' hBoth.2).symm)

end Finding

/-! ### Analyses and runs -/

def Rule.Signs (rule : Rule) : Prop :=
  ∀ view findings, rule.visit view = .ok findings → ∀ f ∈ findings, f.rule = rule.id

theorem Rule.signs_scripted (id : String) (languages : List String) (severity reported : String)
    (needsTree : Bool) (reports : Source → List Report) (reason : Option String) :
    (scripted id languages severity needsTree reported reports reason).Signs := by
  intro view findings hVisit f hf
  cases reason with
  | none =>
    cases hVisit
    obtain ⟨r, -, rfl⟩ := List.mem_map.1 hf
    rfl
  | some why => cases hVisit

theorem Standard.signs {rule : Rule} (hRule : rule ∈ Standard.rules) : rule.Signs := by
  intro view findings hVisit f hf
  rcases mem_rules.1 hRule with rfl | rfl
  · obtain ⟨_, _, -, rfl⟩ := TrailingSpaces.mem_visit hVisit hf
    rfl
  · obtain ⟨_, _, _, _, -, -, rfl⟩ := CurlySpacing.mem_visit hVisit hf
    rfl

variable {grammar : Grammar} {s : Settings} {rules rules' : List Rule} {path : String}

/-- **An analysis finds the same with its rules in another order.** -/
theorem Analysis.run_of_perm {text : List Char} {findings : List Finding} (hPerm : rules.Perm rules')
    (hIds : (rules.map Rule.id).Nodup) (hSigns : ∀ rule ∈ rules, rule.Signs)
    (h : (run grammar s rules path text).result = .ok findings) :
    (run grammar s rules' path text).result = .ok findings := by
  obtain ⟨tree, found, hTree, hFound, hCut⟩ := run_eq_ok h
  obtain ⟨hEach, rfl⟩ := Logged.of_gather_eq_ok hFound
  have hTree' : (parse grammar rules' text).result = .ok tree := by
    rwa [parse, ← hPerm.any_eq]
  have hFound' := Logged.gather_eq_ok fun rule hRule => hEach rule (hPerm.mem_iff.2 hRule)
  have hOwn : ∀ rule ∈ rules, ∀ f ∈ (ofRule s (viewOf path text tree) rule).listed,
      f.rule = rule.id := by
    intro rule hRule f hf
    obtain ⟨options, findings, g, severity, hVisit, hg, rfl⟩ :=
      makes_of_ofRule (hEach rule hRule) f hf
    exact hSigns rule hRule _ findings hVisit g hg
  rw [result_run hTree' hFound', ← Finding.sort_of_perm text hPerm hIds hOwn, hCut]
  rfl

namespace Fixing

theorem passesFrom_of_ok {analyze analyze' : List Char → Logged (List Finding)}
    (hAnalyze : ∀ text findings, (analyze text).result = .ok findings →
      (analyze' text).result = .ok findings)
    {passes : Nat} {text : List Char} {findings : List Finding} {r : List Char × List Finding}
    (h : (passesFrom analyze passes text findings).result = .ok r) :
    (passesFrom analyze' passes text findings).result = .ok r := by
  induction passes generalizing text findings with
  | zero => exact h
  | succ passes ih =>
    rw [passesFrom, Logged.result_bind] at h ⊢
    obtain ⟨next, hStep, h⟩ := bind_eq_ok h
    rw [hStep]
    cases next with
    | none => exact h
    | some fixed =>
      change (analyze fixed >>= fun left => passesFrom analyze passes fixed left).result = _ at h
      show (analyze' fixed >>= fun left => passesFrom analyze' passes fixed left).result = _
      rw [Logged.result_bind] at h ⊢
      obtain ⟨left, hLeft, h⟩ := bind_eq_ok h
      rw [hAnalyze fixed left hLeft]
      exact ih h

theorem run_of_perm {text : List Char} {r : List Char × List Finding} (hPerm : rules.Perm rules')
    (hIds : (rules.map Rule.id).Nodup) (hSigns : ∀ rule ∈ rules, rule.Signs)
    (h : (run grammar s rules path text).result = .ok r) :
    (run grammar s rules' path text).result = .ok r := by
  rw [run, Logged.result_bind] at h ⊢
  obtain ⟨findings, hFindings, h⟩ := bind_eq_ok h
  rw [Analysis.run_of_perm hPerm hIds hSigns hFindings]
  exact passesFrom_of_ok (fun _ _ => Analysis.run_of_perm hPerm hIds hSigns) h

/-- **The order of rules does not matter.** Where rules have ids of their own and sign their findings,
an analysis has the same result with the rules in another order, and so has fixing: if there is one in
one order, there is the same one in the other. Rules may fail, and may need a tree that is not there. -/
theorem run_iff_of_perm (grammar : Grammar) (s : Settings) (rules rules' : List Rule) (path : String)
    (text : List Char) (hPerm : rules.Perm rules') (hIds : (rules.map Rule.id).Nodup)
    (hSigns : ∀ rule ∈ rules, rule.Signs) :
    (∀ findings, (Analysis.run grammar s rules path text).result = .ok findings ↔
      (Analysis.run grammar s rules' path text).result = .ok findings) ∧
    ∀ fixed left, (run grammar s rules path text).result = .ok (fixed, left) ↔
      (run grammar s rules' path text).result = .ok (fixed, left) := by
  have hIds' : (rules'.map Rule.id).Nodup := (hPerm.map Rule.id).nodup_iff.1 hIds
  have hSigns' : ∀ rule ∈ rules', rule.Signs := fun rule hRule => hSigns rule (hPerm.mem_iff.2 hRule)
  refine ⟨fun findings => ⟨?_, ?_⟩, fun fixed left => ⟨?_, ?_⟩⟩
  · exact Analysis.run_of_perm hPerm hIds hSigns
  · exact Analysis.run_of_perm hPerm.symm hIds' hSigns'
  · exact run_of_perm hPerm hIds hSigns
  · exact run_of_perm hPerm.symm hIds' hSigns'

def second : Rule :=
  .scripted "style.second" [] "warn" false "warn"
    (fun _ => [{ location := .offset 1, message := "The second character." }]) none

def broken : Rule := .scripted "style.broken" [] "warn" false "warn" (fun _ => []) (some "No luck.")

/-- The standard rules, a rule that reports where a trailing run starts, and one that gives up. -/
def mixed : List Rule := [TrailingSpaces.rule, CurlySpacing.rule, second, broken]

/-- Of two findings at one offset, the one of the trailing rule comes first, also where this rule is
asked last. The text has no tree. -/
theorem run_iff_of_perm_blank :
    ∃ findings left : List Finding, findings.map Finding.rule = [TrailingSpaces.id, second.id] ∧
      (∀ f ∈ findings, f.start = 1) ∧ left.map Finding.rule = [second.id] ∧
      (Analysis.run (fun _ => none) .standard mixed.reverse "a.js" "x ".toList).result =
        .ok findings ∧
      (run (fun _ => none) .standard mixed.reverse "a.js" "x ".toList).result =
        .ok ("x".toList, left) := by
  have hSigns : ∀ rule ∈ mixed, rule.Signs := by
    intro rule hRule
    simp only [mixed, List.mem_cons, List.not_mem_nil, or_false] at hRule
    rcases hRule with rfl | rfl | rfl | rfl
    · exact Standard.signs (Standard.mem_rules.2 (Or.inl rfl))
    · exact Standard.signs (Standard.mem_rules.2 (Or.inr rfl))
    · exact Rule.signs_scripted _ _ _ _ _ _ _
    · exact Rule.signs_scripted _ _ _ _ _ _ _
  obtain ⟨hFound, hFixed⟩ := run_iff_of_perm (fun _ => none) .standard mixed mixed.reverse "a.js"
    "x ".toList (List.reverse_perm mixed).symm (by decide) hSigns
  let trailing : Finding :=
    ⟨TrailingSpaces.id, TrailingSpaces.message, "a.js", 1, 2, .text "warn", some [⟨1, 2, []⟩],
      .object [("node_type", .text "program")], some 1, some 2⟩
  let other : Finding :=
    ⟨second.id, "The second character.", "a.js", 1, 1, .text "warn", none, .null, some 1, some 2⟩
  refine ⟨[trailing, other], [other], rfl, by decide, rfl, (hFound _).1 ?_, (hFixed _ _).1 ?_⟩
  · cbv
  · cbv

end Fixing

end TidySpace
