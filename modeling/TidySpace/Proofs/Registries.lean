import Mathlib.Data.List.DropRight
import Mathlib.Data.List.Nodup
import TidySpace.Proofs.Analysis
import TidySpace.Registry

/-! # Registries after any operations

The list of a registry's rules and its index are kept apart, and stay in step: `InStep` says what both
have to do with the rules that were offered since all were cleared the last time. Adding a rule keeps it
(`InStep.add`), and discovery is nothing but adding (`addPackages_eq`), so it holds after all operations
(`inStep_afterAll`).

Choosing rules takes three ways, for no patterns, for the pattern of all ids, and for any others. They
all select the rules for the language of which some pattern matches the id (`enabled_texts`).
-/

namespace TidySpace

variable {ρ α : Type}

/-- All rules of a package, in the order in which they are found. -/
def Package.found (package : Package ρ) : List (Listed ρ) :=
  package.rules ++ package.modules.flatMap fun m => m.2.getD []

namespace Registry

variable {packages : List (String × Package ρ)} {r : Registry ρ α} {seen : List (Listed ρ)}

/-! ### Operations -/

inductive Operation (ρ α : Type) where
  | add (rule : Listed ρ)
  | addHandler (handler : Handler α)
  | discover (names : List String)
  | clear

/-- The registry after an operation, also where discovery fails. -/
def after (r : Registry ρ α) (packages : List (String × Package ρ)) :
    Operation ρ α → Registry ρ α
  | .add rule => r.add rule
  | .addHandler handler => r.addHandler handler
  | .discover names => (r.discover packages names).2
  | .clear => r.clear

def afterAll (packages : List (String × Package ρ)) (ops : List (Operation ρ α)) : Registry ρ α :=
  ops.foldl (fun r op => r.after packages op) {}

def foundIn (packages : List (String × Package ρ)) : List String → List (Listed ρ)
  | [] => []
  | name :: names =>
    match package? packages name with
    | .error _ => []
    | .ok found => found.elim [] Package.found ++ foundIn packages names

/-- The rules that an operation registers, unless their ids are taken. -/
def Operation.offers (packages : List (String × Package ρ)) : Operation ρ α → List (Listed ρ)
  | .add rule => [rule]
  | .discover names => foundIn packages names
  | .addHandler _ => []
  | .clear => []

def Operation.isClear : Operation ρ α → Bool
  | .clear => true
  | _ => false

/-- The rules that were registered since all were cleared the last time, also those whose ids were
taken. -/
def offered (packages : List (String × Package ρ)) (ops : List (Operation ρ α)) : List (Listed ρ) :=
  (ops.rtakeWhile (!·.isClear)).flatMap (Operation.offers packages)

/-! ### The list and the index -/

/-- A registry is in step with the rules it was offered: the index has what is listed, and listed is
the first rule under each id, in order. -/
structure InStep (r : Registry ρ α) (seen : List (Listed ρ)) : Prop where
  index_eq : r.index = r.rules.map fun rule => (rule.id, rule)
  nodup : (r.rules.map Listed.id).Nodup
  sublist : r.rules.Sublist seen
  find?_eq : ∀ id, r.rules.find? (·.id == id) = seen.find? (·.id == id)

theorem inStep_nil (handlers : List (Handler α)) : InStep (ρ := ρ) ⟨[], [], handlers⟩ [] :=
  ⟨rfl, List.nodup_nil, List.Sublist.refl [], fun _ => rfl⟩

/-- **The index finds what is listed.** -/
theorem InStep.rule?_eq (h : r.InStep seen) (id : String) :
    r.rule? id = seen.find? (·.id == id) := by
  rw [← h.find?_eq id, rule?, h.index_eq]
  induction r.rules with
  | nil => rfl
  | cons rule rest ih =>
    rw [List.map_cons, List.lookup_cons, List.find?_cons, ih, Bool.beq_comm]

/-- **A registry stays in step when a rule is added.** -/
theorem InStep.add (h : r.InStep seen) (rule : Listed ρ) : (r.add rule).InStep (seen ++ [rule]) := by
  unfold Registry.add
  have hTaken := h.rule?_eq rule.id
  unfold rule? at hTaken
  cases hFind : seen.find? (·.id == rule.id) with
  | some first =>
    rw [hTaken, hFind, Option.isSome_some, if_pos rfl]
    refine ⟨h.index_eq, h.nodup, h.sublist.trans (List.sublist_append_left _ _), ?_⟩
    intro id
    rw [h.find?_eq, List.find?_append]
    -- Only under its own id could the rule be found, and there is one before it.
    by_cases hId : rule.id = id
    · rw [← hId, hFind, Option.some_or]
    · simp [hId]
  | none =>
    rw [hTaken, hFind, Option.isSome_none, if_neg Bool.false_ne_true]
    have hNew : rule.id ∉ r.rules.map Listed.id := by
      intro hMem
      obtain ⟨other, hOther, hId⟩ := List.mem_map.1 hMem
      exact List.find?_eq_none.1 ((h.find?_eq rule.id).trans hFind) other hOther (beq_iff_eq.2 hId)
    refine ⟨?_, ?_, h.sublist.append (List.Sublist.refl _), ?_⟩
    · rw [h.index_eq, List.map_append]
      rfl
    · rw [List.map_append]
      exact h.nodup.append (List.nodup_singleton _) (List.disjoint_singleton.2 hNew)
    · intro id
      rw [List.find?_append, List.find?_append, h.find?_eq]

theorem InStep.addAll (h : r.InStep seen) (rules : List (Listed ρ)) :
    (r.addAll rules).InStep (seen ++ rules) := by
  induction rules generalizing r seen with
  | nil => rwa [List.append_nil]
  | cons rule rest ih =>
    rw [List.append_cons]
    exact ih (h.add rule)

theorem addAll_append (r : Registry ρ α) (rules more : List (Listed ρ)) :
    r.addAll (rules ++ more) = (r.addAll rules).addAll more := List.foldl_append

theorem exists_rules_addAll (r : Registry ρ α) (rules : List (Listed ρ)) :
    ∃ added, (r.addAll rules).rules = r.rules ++ added := by
  induction rules generalizing r with
  | nil => exact ⟨[], (List.append_nil _).symm⟩
  | cons rule rest ih =>
    obtain ⟨added, hAdded⟩ := ih (r.add rule)
    have hStep : (r.add rule).rules = r.rules ∨ (r.add rule).rules = r.rules ++ [rule] := by
      unfold Registry.add
      split
      · exact Or.inl rfl
      · exact Or.inr rfl
    rcases hStep with hKept | hNew
    · exact ⟨added, hAdded.trans (congrArg (· ++ added) hKept)⟩
    · refine ⟨rule :: added, hAdded.trans ?_⟩
      rw [hNew, List.append_assoc]
      rfl

/-! ### Discovery -/

/-- A name under which there can be a package: it is given, and in full. -/
def IsPackageName (name : String) : Prop := name ≠ "" ∧ name.toList.head? ≠ some '.'

theorem package?_of_isPackageName {name : String} (h : IsPackageName name) :
    package? packages name = .ok (packages.lookup name) := by
  rw [package?, if_neg (by simpa using h.1), if_neg (by simpa using h.2)]

theorem exists_package?_eq_error (packages : List (String × Package ρ)) {name : String}
    (h : ¬ IsPackageName name) : ∃ e, package? packages name = .error e := by
  unfold package?
  by_cases hEmpty : name = ""
  · exact ⟨_, if_pos (by simp [hEmpty])⟩
  · have hPoint : name.toList.head? = some '.' := by
      by_contra hFull
      exact h ⟨hEmpty, hFull⟩
    exact ⟨_, by rw [if_neg (by simpa using hEmpty), if_pos (by simp [hPoint])]⟩

theorem addModules_eq (modules : List (String × Option (List (Listed ρ)))) (r : Registry ρ α) :
    (addModules modules r).1.result = .ok () ∧
      (addModules modules r).2 = r.addAll (modules.flatMap fun m => m.2.getD []) := by
  induction modules generalizing r with
  | nil => exact ⟨rfl, rfl⟩
  | cons m rest ih =>
    obtain ⟨name, rules⟩ := m
    cases rules with
    | none => exact ⟨(Logged.result_andThen _ _).trans (ih r).1, (ih r).2⟩
    | some rules =>
      refine ⟨(ih _).1, (ih _).2.trans ?_⟩
      rw [List.flatMap_cons, addAll_append]
      rfl

/-- **Discovery adds the rules of packages.** -/
theorem addPackages_eq (packages : List (String × Package ρ)) (names : List String)
    (r : Registry ρ α) : (addPackages packages names r).2 = r.addAll (foundIn packages names) := by
  induction names generalizing r with
  | nil => rfl
  | cons name names ih =>
    rw [addPackages, foundIn]
    cases package? packages name with
    | error e => rfl
    | ok found =>
      cases found with
      | none => exact ih r
      | some package =>
        dsimp only [Option.elim_some]
        rw [ih, (addModules_eq _ _).2, addAll_append, Package.found, addAll_append]

/-- Discovery ends where all names are such of packages, whether there are packages under them or
not. -/
theorem addPackages_result (names : List String) (r : Registry ρ α)
    (h : ∀ name ∈ names, IsPackageName name) : (addPackages packages names r).1.result = .ok () := by
  induction names generalizing r with
  | nil => rfl
  | cons name names ih =>
    have hRest := fun r => ih r fun n hn => h n (List.mem_cons_of_mem _ hn)
    rw [addPackages, package?_of_isPackageName (h name List.mem_cons_self)]
    cases packages.lookup name with
    | none => exact (Logged.result_andThen _ _).trans (hRest r)
    | some package =>
      refine (Logged.result_andThen _ _).trans ?_
      rw [(addModules_eq _ _).1]
      exact hRest _

theorem addPackages_fails (packages : List (String × Package ρ)) {names : List String}
    (r : Registry ρ α) {name : String} (hMem : name ∈ names) (hName : ¬ IsPackageName name) :
    ∃ e, (addPackages packages names r).1.result = .error e := by
  induction names generalizing r with
  | nil => cases hMem
  | cons first names ih =>
    rw [addPackages]
    cases hPackage : package? packages first with
    | error e => exact ⟨e, rfl⟩
    | ok found =>
      have hRest : name ∈ names := by
        rcases List.mem_cons.1 hMem with rfl | hRest
        · obtain ⟨e, hError⟩ := exists_package?_eq_error packages hName
          rw [hError] at hPackage
          cases hPackage
        · exact hRest
      cases found with
      | none =>
        obtain ⟨e, hLater⟩ := ih r hRest
        exact ⟨e, (Logged.result_andThen _ _).trans hLater⟩
      | some package =>
        obtain ⟨e, hLater⟩ := ih _ hRest
        refine ⟨e, (Logged.result_andThen _ _).trans ?_⟩
        rw [(addModules_eq _ _).1]
        exact hLater

/-- **Discovery tells by how much the list has grown**, unless a name is none of a package. -/
theorem discover_eq (packages : List (String × Package ρ)) (names : List String)
    (r : Registry ρ α) : ∃ added, (r.discover packages names).2.rules = r.rules ++ added ∧
      ((∀ name ∈ names, IsPackageName name) →
        (r.discover packages names).1.result = .ok added.length) ∧
      ∀ name ∈ names, ¬ IsPackageName name →
        ∃ e, (r.discover packages names).1.result = .error e := by
  obtain ⟨added, hAdded⟩ := exists_rules_addAll r (foundIn packages names)
  rw [← addPackages_eq] at hAdded
  refine ⟨added, hAdded, ?_, ?_⟩
  · intro hNames
    rw [discover]
    dsimp only
    rw [Logged.result_andThen, addPackages_result names r hNames, hAdded, List.length_append]
    exact congrArg Except.ok (Nat.add_sub_cancel_left ..)
  · intro name hMem hName
    obtain ⟨e, hFails⟩ := addPackages_fails packages r hMem hName
    refine ⟨e, (Logged.result_andThen _ _).trans ?_⟩
    rw [hFails]
    rfl

/-! ### All operations -/

/-- **Every operation keeps a registry in step** with what was offered, which starts anew when all is
cleared. -/
theorem InStep.after (h : r.InStep seen) (packages : List (String × Package ρ))
    (op : Operation ρ α) : (r.after packages op).InStep
      (if op.isClear then [] else seen ++ op.offers packages) := by
  cases op with
  | clear => exact inStep_nil []
  | add rule => exact h.add rule
  | addHandler handler =>
    show (r.addHandler handler).InStep (seen ++ [])
    rw [List.append_nil, addHandler]
    split
    · exact h
    · exact ⟨h.index_eq, h.nodup, h.sublist, h.find?_eq⟩
  | discover names =>
    show (addPackages packages names r).2.InStep (seen ++ foundIn packages names)
    rw [addPackages_eq]
    exact h.addAll (foundIn packages names)

theorem offered_concat (packages : List (String × Package ρ)) (ops : List (Operation ρ α))
    (op : Operation ρ α) : offered packages (ops ++ [op]) =
      if op.isClear then [] else offered packages ops ++ op.offers packages := by
  rw [offered, List.rtakeWhile_concat]
  cases op.isClear
  · simp [offered]
  · rfl

/-- **A registry is in step** with what was offered since all were cleared the last time. -/
theorem inStep_afterAll (packages : List (String × Package ρ)) (ops : List (Operation ρ α)) :
    (afterAll packages ops).InStep (offered packages ops) := by
  induction ops using List.reverseRecOn with
  | nil => exact inStep_nil []
  | append_singleton ops op ih =>
    rw [afterAll, List.foldl_concat, offered_concat]
    exact ih.after packages op

-- The registry of the program is what its setup makes of an empty one.
example : Standard.registry = afterAll Standard.packages
    [.addHandler ⟨"javascript", Language.javascript.extensions, Language.javascript⟩,
      .discover ["spacelint.rules"]] := rfl

/-! ### Choosing -/

theorem selects_star (name : String) : Pattern.selects "*" name = true := by
  have hAll (cs : List Char) : Pattern.accepts [.anyText] cs = true := by
    induction cs with
    | nil => simp [Pattern.accepts]
    | cons c cs ih => simp [Pattern.accepts, ih]
  have hParse : Pattern.parse "*".toList = [.anyText] := by cbv
  rw [Pattern.selects, hParse]
  exact hAll name.toList

theorem anySelects_texts (id : String) (patterns : List String) :
    anySelects id (patterns.map .text) = .ok (patterns.any (Pattern.selects · id)) := by
  induction patterns with
  | nil => rfl
  | cons pattern rest ih =>
    rw [List.map_cons, anySelects, ih, List.any_cons]
    cases Pattern.selects pattern id <;> rfl

theorem selected_texts (patterns : List String) (rules : List (Listed ρ)) :
    selected (.list (patterns.map .text)) rules =
      .ok (rules.filter fun rule => patterns.any (Pattern.selects · rule.id)) := by
  induction rules with
  | nil => rfl
  | cons rule rest ih =>
    rw [selected, ih, List.filter_cons]
    show (anySelects rule.id (patterns.map .text) >>= fun chosen => pure _) = _
    rw [anySelects_texts]
    cases patterns.any (Pattern.selects · rule.id) <;> rfl

theorem same_star (patterns : List String) :
    Value.same (.list (patterns.map .text)) (.list [.text "*"]) = true ↔ patterns = ["*"] := by
  cases patterns with
  | nil => simp [Value.same, Value.sameItems]
  | cons pattern rest =>
    cases rest <;> simp [Value.same, Value.sameItems]

/-- **All three ways of choosing are one**: no patterns, all ids, and the way for any patterns. -/
theorem enabled_texts (r : Registry ρ α) (patterns : List String) (language : String) :
    r.enabled (.list (patterns.map .text)) language =
      .ok ((r.rulesFor language).filter fun rule => patterns.any (Pattern.selects · rule.id)) := by
  unfold enabled
  split
  next hNone =>
    have hEmpty : patterns = [] := by simpa [Value.isGiven] using hNone
    subst hEmpty
    simp
  next =>
    split
    next hStar =>
      rw [(same_star patterns).1 hStar]
      simp [selects_star]
    next => exact selected_texts patterns (r.rulesFor language)

/-- A registry answers as one that holds the first of the rules it was offered under each id. -/
structure Answers (packages : List (String × Package ρ)) (seen : List (Listed ρ))
    (r : Registry ρ α) : Prop where
  /-- No two rules have one id. -/
  nodup : (r.rules.map Listed.id).Nodup
  /-- The rules are listed in the order in which they were offered. -/
  sublist : r.rules.Sublist seen
  ruleIds_eq : r.ruleIds = r.rules.map Listed.id
  rule?_eq : ∀ id, r.rule? id = seen.find? (·.id == id)
  /-- Discovery tells by how much it makes the list grow. -/
  discovers : ∀ names, ∃ added, (r.discover packages names).2.rules = r.rules ++ added ∧
    ((∀ name ∈ names, IsPackageName name) →
      (r.discover packages names).1.result = .ok added.length) ∧
    ∀ name ∈ names, ¬ IsPackageName name → ∃ e, (r.discover packages names).1.result = .error e
  /-- Patterns choose a part of the list, namely the rules for the language that some of them
  matches. -/
  chooses : ∀ (language : String) (patterns : List String), ∃ chosen,
    r.enabled (.list (patterns.map .text)) language = .ok chosen ∧ chosen.Sublist r.rules ∧
      (chosen.map Listed.id).Nodup ∧
      ∀ rule, rule ∈ chosen ↔ rule ∈ r.rules ∧ language ∈ rule.languages ∧
        ∃ pattern ∈ patterns, Pattern.selects pattern rule.id = true
  /-- The order of patterns does not count, nor how often each is given. -/
  chooses_congr : ∀ (language : String) (patterns patterns' : List String),
    (∀ pattern, pattern ∈ patterns ↔ pattern ∈ patterns') →
      r.enabled (.list (patterns.map .text)) language =
        r.enabled (.list (patterns'.map .text)) language
  /-- The short cut for all ids is one. -/
  chooses_star : ∀ language, r.enabled (.list [.text "*"]) language =
    selected (.list [.text "*"]) (r.rulesFor language)

/-- **Whatever was done to a registry**, it answers as one that holds the first rule under each id of
those that were registered since all were cleared the last time. -/
theorem answers_afterAll (packages : List (String × Package ρ)) (ops : List (Operation ρ α)) :
    (afterAll packages ops).Answers packages (offered packages ops) := by
  have h := inStep_afterAll packages ops
  refine ⟨h.nodup, h.sublist, ?_, h.rule?_eq, fun names => discover_eq packages names _, ?_, ?_, ?_⟩
  · rw [ruleIds, h.index_eq, List.map_map]
    rfl
  · intro language patterns
    have hPart : ((afterAll packages ops).rulesFor language).filter (fun rule =>
        patterns.any (Pattern.selects · rule.id)) |>.Sublist (afterAll packages ops).rules :=
      List.filter_sublist.trans List.filter_sublist
    refine ⟨_, enabled_texts _ patterns language, hPart, h.nodup.sublist (hPart.map _), ?_⟩
    intro rule
    rw [List.mem_filter, rulesFor, List.mem_filter, List.any_eq_true, List.contains_iff_mem, and_assoc]
  · intro language patterns patterns' hSame
    rw [enabled_texts, enabled_texts]
    have hAny (id : String) : patterns.any (Pattern.selects · id) =
        patterns'.any (Pattern.selects · id) := by
      rw [Bool.eq_iff_iff, List.any_eq_true, List.any_eq_true]
      simp only [hSame]
    simp only [hAny]
  · intro language
    rw [← List.map_singleton (f := Value.text), enabled_texts, selected_texts]

end Registry

end TidySpace
