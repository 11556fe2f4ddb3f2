import Mathlib.Data.List.TakeWhile
import TidySpace.Proofs.ListedFiles

/-! # Which files belong to the language

There are two tests. A file is listed by how its path ends, and a handler is chosen by the extension of
its last name, in lower case, where the dots in front of the name do not count.
-/

namespace TidySpace

namespace Text

/-! ### Lower case -/

/-- An ASCII character that is the lower case of no other character than an ASCII letter. The letters i
and k are that of others, and U+0000 stands for numbers that are no character's. -/
abbrev IsSimple (c : Char) : Prop := c.toNat < 0x80 ∧ c ∉ ['i', 'k', '\x00']

theorem not_isSimple_of_le {c : Char} (h : 0x80 ≤ c.toNat) : ¬ IsSimple c := fun hSimple =>
  Nat.not_lt.2 h hSimple.1

/-- Letters beyond ASCII have their lower case there too, but for the Kelvin sign. -/
theorem le_of_mem_caseRuns : ∀ run ∈ caseRuns, 0x80 ≤ run.first + run.distance ∨
    run.first = 0x212A ∧ run.last = 0x212A ∧ run.distance = -8383 := by
  decide +kernel

theorem not_isSimple_ofNat {n : Nat} (h : 0x80 ≤ n ∨ n = 'k'.toNat) : ¬ IsSimple (Char.ofNat n) := by
  by_cases hValid : n.isValidChar
  · rcases h with h | rfl
    · refine not_isSimple_of_le ?_
      rwa [Utf8.toNat_charOfNat hValid]
    · decide
  · rw [Char.ofNat, dif_neg hValid]
    decide

theorem exists_lowerChar {c : Char} (h : 0x80 ≤ c.toNat) :
    ∃ d rest, lowerChar c = d :: rest ∧ ¬ IsSimple d := by
  unfold lowerChar
  dsimp only
  rw [if_neg (Nat.not_lt.2 h)]
  split
  next => exact ⟨'i', _, rfl, by decide⟩
  split
  next run hFind =>
    refine ⟨_, [], rfl, not_isSimple_ofNat ?_⟩
    have hRun := le_of_mem_caseRuns run (List.mem_of_find?_eq_some hFind)
    have hContains := List.find?_some hFind
    simp only [CaseRun.contains, Bool.and_eq_true, decide_eq_true_eq] at hContains
    show 0x80 ≤ _ ∨ _ = 107
    omega
  next => exact ⟨c, [], rfl, not_isSimple_of_le h⟩

theorem toLower_of_le {c : Char} (h : 0x80 ≤ c.toNat) : c.toLower = c := by
  unfold Char.toLower
  rw [dif_neg]
  rintro ⟨-, hLe⟩
  have : c.toNat ≤ 90 := hLe
  omega

/-- **A text whose lower case is simple** is ASCII, and ASCII letters have the lower case they have
alone. -/
theorem lower_eq_iff {cs low : List Char} (hSimple : ∀ c ∈ low, IsSimple c) :
    lower cs = low ↔ cs.map Char.toLower = low := by
  suffices hBehind : ∀ before, lowerBehind before cs = low ↔ cs.map Char.toLower = low from hBehind []
  intro before
  induction cs generalizing before low with
  | nil => rfl
  | cons c cs ih =>
    rw [lowerBehind, List.map_cons]
    by_cases hAscii : c.toNat < 0x80
    · have hLower : lowerChar c = [c.toLower] := by
        unfold lowerChar
        exact if_pos hAscii
      rw [if_neg (by omega), hLower, List.singleton_append]
      cases low with
      | nil => exact iff_of_false (List.cons_ne_nil _ _) (List.cons_ne_nil _ _)
      | cons d low =>
        rw [List.cons.injEq, List.cons.injEq, ih (List.forall_mem_cons.1 hSimple).2]
    · -- What is not ASCII begins with a character that is not simple in its lower case.
      have hLe := Nat.le_of_not_lt hAscii
      obtain ⟨d, rest, hHead, hOther⟩ : ∃ d rest, (if c.toNat = 0x3A3 then [lowerSigma before cs]
          else lowerChar c) = d :: rest ∧ ¬ IsSimple d := by
        split
        next =>
          refine ⟨_, [], rfl, ?_⟩
          unfold lowerSigma
          split
          next => decide
          next => decide
        next => exact exists_lowerChar hLe
      rw [hHead, toLower_of_le hLe]
      refine iff_of_false ?_ ?_
      · rintro rfl
        exact hOther (hSimple d List.mem_cons_self)
      · rintro rfl
        exact not_isSimple_of_le hLe (hSimple c List.mem_cons_self)

end Text

/-! ### Names of files -/

theorem exists_lastName (path : List Char) : ∃ above, path = above ++ lastName path ∧
    '/' ∉ lastName path ∧ (above = [] ∨ '/' ∈ above.getLast?) := by
  suffices hPieces : ∃ front name, Text.splitOn '/' path = front ++ [name] ∧
      path = (front.flatMap (· ++ ['/'])) ++ name ∧ '/' ∉ name by
    obtain ⟨front, name, hSplit, hPath, hName⟩ := hPieces
    have hLast : lastName path = name := by rw [lastName, hSplit, List.getLast?_concat]; rfl
    refine ⟨_, by rw [hLast]; exact hPath, hLast ▸ hName, ?_⟩
    rcases List.eq_nil_or_concat front with rfl | ⟨front, piece, rfl⟩
    · exact Or.inl rfl
    · refine Or.inr ?_
      rw [List.concat_eq_append, List.flatMap_append, List.flatMap_singleton, ← List.append_assoc,
        List.getLast?_concat]
      exact rfl
  induction path with
  | nil => exact ⟨[], [], rfl, rfl, List.not_mem_nil⟩
  | cons c path ih =>
    obtain ⟨front, name, hSplit, hPath, hName⟩ := ih
    rw [Text.splitOn]
    by_cases hc : c = '/'
    · rw [if_pos hc, hSplit]
      exact ⟨[] :: front, name, rfl, by rw [hc, hPath]; rfl, hName⟩
    · rw [if_neg hc, hSplit]
      cases front with
      | nil => exact ⟨[], c :: name, rfl, by rw [hPath]; rfl, by simpa [Ne.symm hc] using hName⟩
      | cons piece front => exact ⟨(c :: piece) :: front, name, rfl, by rw [hPath]; rfl, hName⟩

theorem suffix_lastName_iff {path ending : List Char} (hEnding : '/' ∉ ending) :
    ending <:+ lastName path ↔ ending <:+ path := by
  obtain ⟨above, hPath, -, hAbove⟩ := exists_lastName path
  have hName : lastName path <:+ path := ⟨above, hPath.symm⟩
  refine ⟨fun h => h.trans hName, fun h => ?_⟩
  rcases List.suffix_or_suffix_of_suffix h hName with hShort | ⟨more, hMore⟩
  · exact hShort
  · obtain ⟨front, hFront⟩ := h
    rw [← hMore, ← List.append_assoc] at hFront
    have hEq := List.append_cancel_right (hFront.trans hPath)
    rcases List.eq_nil_or_concat more with rfl | ⟨more, c, rfl⟩
    · exact ⟨[], hMore.symm⟩
    · rcases hAbove with rfl | hLast
      · simp at hEq
      · rw [← hEq, List.concat_eq_append, ← List.append_assoc, List.getLast?_concat] at hLast
        obtain rfl := Option.some.inj hLast
        exact absurd (by simp [← hMore]) hEnding

/-! ### Extensions of names -/

theorem fromLastDot_append {stem rest : List Char} (h : '.' ∉ rest) :
    fromLastDot (stem ++ '.' :: rest) = '.' :: rest := by
  have hRest : ∀ c ∈ rest.reverse, (c != '.') = true := by
    intro c hc
    rw [bne_iff_ne]
    rintro rfl
    exact h (List.mem_reverse.1 hc)
  rw [fromLastDot, if_pos (by simp), List.reverse_append, List.reverse_cons, List.append_assoc,
    List.takeWhile_append_of_pos hRest]
  simp

theorem exists_of_fromLastDot {name rest : List Char} (h : fromLastDot name = '.' :: rest) :
    ∃ stem, name = stem ++ '.' :: rest := by
  unfold fromLastDot at h
  split at h
  next hDot =>
    obtain ⟨back, front, hBack, hLast⟩ :=
      List.eq_append_cons_of_mem (List.mem_reverse.2 (List.contains_iff_mem.1 hDot))
    have hName : name = front.reverse ++ '.' :: back.reverse := by
      rw [← List.reverse_reverse name, hBack]
      simp
    refine ⟨front.reverse, ?_⟩
    rw [hName, ← h, ← fromLastDot_append (by simpa using hLast), hName, fromLastDot, if_pos (by simp)]
  next => cases h

/-- The last dot of a name parts it in one way. -/
theorem eq_of_lastDot {stem stem' rest rest' : List Char} (h : '.' ∉ rest) (h' : '.' ∉ rest')
    (hEq : stem ++ '.' :: rest = stem' ++ '.' :: rest') : stem = stem' ∧ rest = rest' := by
  have hRest := congrArg fromLastDot hEq
  rw [fromLastDot_append h, fromLastDot_append h'] at hRest
  obtain rfl := (List.cons.inj hRest).2
  exact ⟨List.append_cancel_right hEq, rfl⟩

/-- A name has a stem, in which not all is dots, and behind it an ending. -/
def HasEnding (name ending : List Char) : Prop := ∃ stem, name = stem ++ ending ∧ ∃ c ∈ stem, c ≠ '.'

/-- **The extension of a name** is what it ends with from its last dot on, if it has a stem. -/
theorem fromLastDot_dropWhile_iff {name rest : List Char} (h : '.' ∉ rest) :
    fromLastDot (name.dropWhile (· == '.')) = '.' :: rest ↔ HasEnding name ('.' :: rest) := by
  constructor
  · intro hDot
    obtain ⟨stem, hBody⟩ := exists_of_fromLastDot hDot
    refine ⟨name.takeWhile (· == '.') ++ stem, ?_, ?_⟩
    · rw [List.append_assoc, ← hBody, List.takeWhile_append_dropWhile]
    · have hHead := List.head?_dropWhile_not (· == '.') name
      rw [hBody] at hHead
      cases stem with
      | nil => simp at hHead
      | cons c stem => exact ⟨c, List.mem_append_right _ List.mem_cons_self, by simpa using hHead⟩
  · rintro ⟨stem, rfl, c, hc, hNe⟩
    have hStem : stem.dropWhile (· == '.') ≠ [] := by
      intro hNil
      exact hNe (by simpa using List.dropWhile_eq_nil_iff.1 hNil c hc)
    rw [List.dropWhile_append, if_neg (by simpa using hStem), fromLastDot_append h]

/-! ### The two tests -/

/-- A text is one of the extensions of the language's files. -/
def IsExtension (cs : List Char) : Prop := String.ofList cs ∈ Language.javascript.extensions

theorem isExtension_iff {cs : List Char} : IsExtension cs ↔
    cs = ['.', 'j', 's'] ∨ cs = ['.', 'j', 's', 'x'] ∨ cs = ['.', 'm', 'j', 's'] ∨
      cs = ['.', 'c', 'j', 's'] := by
  have hList (s : String) : String.ofList cs = s ↔ cs = s.toList := by
    rw [← String.toList_inj, String.toList_ofList]
  simp only [IsExtension, Language.javascript, List.mem_cons, List.not_mem_nil, or_false, hList]
  rfl

theorem IsExtension.cases {cs : List Char} (h : IsExtension cs) :
    (∃ rest, cs = '.' :: rest ∧ '.' ∉ rest) ∧ '/' ∉ cs ∧ (∀ c ∈ cs, Text.IsSimple c) ∧
      cs.map Char.toLower = cs := by
  rcases isExtension_iff.1 h with rfl | rfl | rfl | rfl
  · exact ⟨⟨_, rfl, by decide⟩, by decide, by simp [Text.IsSimple], by decide⟩
  · exact ⟨⟨_, rfl, by decide⟩, by decide, by simp [Text.IsSimple], by decide⟩
  · exact ⟨⟨_, rfl, by decide⟩, by decide, by simp [Text.IsSimple], by decide⟩
  · exact ⟨⟨_, rfl, by decide⟩, by decide, by simp [Text.IsSimple], by decide⟩

theorem eq_dot_of_toLower {c : Char} (h : c.toLower = '.') : c = '.' := by
  have hAscii : ∀ n < 0x80, (Char.ofNat n).toLower = '.' → Char.ofNat n = '.' := by decide
  by_cases hc : c.toNat < 0x80
  · rw [← Char.ofNat_toNat c] at h ⊢
    exact hAscii c.toNat hc h
  · rwa [Text.toLower_of_le (Nat.le_of_not_lt hc)] at h

theorem IsExtension.dotted {ending : List Char} (h : IsExtension (ending.map Char.toLower)) :
    ∃ rest, ending = '.' :: rest ∧ '.' ∉ rest := by
  obtain ⟨⟨low, hLow, hDot⟩, -⟩ := h.cases
  obtain ⟨c, rest, rfl, hc, rfl⟩ := List.map_eq_cons_iff.1 hLow
  obtain rfl := eq_dot_of_toLower hc
  exact ⟨rest, rfl, fun hRest => hDot (List.mem_map.2 ⟨'.', hRest, rfl⟩)⟩

/-- **A handler is chosen by what a name ends with** behind a stem, whatever the case of its letters. -/
theorem extensionOf_mem_iff {path : String} : extensionOf path ∈ Language.javascript.extensions ↔
    ∃ ending, HasEnding (lastName path.toList) ending ∧ IsExtension (ending.map Char.toLower) := by
  rw [extensionOf]
  generalize lastName path.toList = name
  constructor
  · intro h
    obtain ⟨-, -, hSimple, -⟩ := IsExtension.cases h
    rw [← (Text.lower_eq_iff hSimple).1 rfl] at h
    obtain ⟨rest, hEnding, hDot⟩ := IsExtension.dotted h
    rw [hEnding] at h
    exact ⟨_, (fromLastDot_dropWhile_iff hDot).1 hEnding, h⟩
  · rintro ⟨ending, hEnding, h⟩
    obtain ⟨-, -, hSimple, -⟩ := h.cases
    obtain ⟨rest, rfl, hDot⟩ := h.dotted
    rw [(fromLastDot_dropWhile_iff hDot).2 hEnding, (Text.lower_eq_iff hSimple).2 rfl]
    exact h

theorem isSource_iff {path : String} : FileTree.IsSource path ↔
    ∃ ending, ending <:+ lastName path.toList ∧ IsExtension ending := by
  constructor
  · rintro ⟨extension, hMem, hSuffix⟩
    have hExtension : IsExtension extension.toList := by
      rwa [IsExtension, String.ofList_toList]
    exact ⟨_, (suffix_lastName_iff hExtension.cases.2.1).2 hSuffix, hExtension⟩
  · rintro ⟨ending, hSuffix, hExtension⟩
    refine ⟨_, hExtension, ?_⟩
    rw [String.toList_ofList]
    exact (suffix_lastName_iff hExtension.cases.2.1).1 hSuffix

/-! ### Where the tests differ -/

/-- A name that is an extension, perhaps with more dots in front: it has no stem. -/
def IsBare (name : List Char) : Prop :=
  ∃ n ending, name = List.replicate n '.' ++ ending ∧ IsExtension ending

/-- A name that ends with an extension behind its stem, but not in lower case. -/
def IsRecased (name : List Char) : Prop :=
  ∃ ending, HasEnding name ending ∧ ¬ IsExtension ending ∧ IsExtension (ending.map Char.toLower)

variable {name : List Char}

theorem IsBare.suffix (h : IsBare name) : ∃ ending, ending <:+ name ∧ IsExtension ending := by
  obtain ⟨n, ending, rfl, hExtension⟩ := h
  exact ⟨ending, ⟨_, rfl⟩, hExtension⟩

theorem IsBare.not_hasEnding (h : IsBare name) {ending : List Char}
    (hExtension : IsExtension (ending.map Char.toLower)) : ¬ HasEnding name ending := by
  obtain ⟨n, bare, rfl, hBare⟩ := h
  obtain ⟨⟨rest, rfl, hRest⟩, -⟩ := hBare.cases
  obtain ⟨rest', rfl, hRest'⟩ := hExtension.dotted
  rintro ⟨stem, hName, c, hc, hNe⟩
  obtain ⟨rfl, -⟩ := eq_of_lastDot hRest hRest' hName
  exact hNe (List.eq_of_mem_replicate hc)

theorem IsRecased.not_suffix (h : IsRecased name) {ending : List Char} (hExtension : IsExtension ending) :
    ¬ ending <:+ name := by
  obtain ⟨recased, ⟨stem, rfl, -⟩, hNot, hLower⟩ := h
  obtain ⟨⟨rest, rfl, hRest⟩, -⟩ := hExtension.cases
  obtain ⟨rest', rfl, hRest'⟩ := hLower.dotted
  rintro ⟨stem', hName⟩
  obtain ⟨-, rfl⟩ := eq_of_lastDot hRest hRest' hName
  exact hNot hExtension

theorem hasEnding_of_suffix {ending : List Char} (hSuffix : ending <:+ name)
    (hExtension : IsExtension ending) (hBare : ¬ IsBare name) : HasEnding name ending := by
  obtain ⟨stem, rfl⟩ := hSuffix
  refine ⟨stem, rfl, ?_⟩
  suffices hDots : ¬ ∀ c ∈ stem, c = '.' by simpa using hDots
  intro hDots
  exact hBare ⟨stem.length, ending, by rw [← List.eq_replicate_iff.2 ⟨rfl, hDots⟩], hExtension⟩

namespace Project

open FileTree

variable {ρ : Type} {t : FileTree} {path : String} {p : Path} {data : List UInt8} {r : Registry ρ Language}
  {before behind : List (Handler Language)}

def handler : Handler Language := ⟨"javascript", Language.javascript.extensions, Language.javascript⟩

theorem handlerFor?_eq_some_iff (hHandlers : r.handlers = before ++ handler :: behind)
    (hOthers : ∀ other ∈ before, ∀ extension ∈ handler.extensions, extension ∉ other.extensions) :
    r.handlerFor? path = some handler ↔ extensionOf path ∈ Language.javascript.extensions := by
  rw [Registry.handlerFor?, hHandlers]
  constructor
  · intro h
    have hMem := List.find?_some h
    exact List.contains_iff_mem.1 hMem
  · intro h
    rw [List.find?_append, List.find?_eq_none.2, Option.none_or, List.find?_cons_of_pos]
    · exact List.contains_iff_mem.2 h
    · intro other hOther hMem
      exact hOthers other hOther _ h (List.contains_iff_mem.1 hMem)

theorem isSource_of_standsFor {file : String} (hFile : t.locate? path = some (p, .file data))
    (h : t.StandsFor path file) : IsSource path := by
  cases h with
  | itself _ hName => exact hName
  | below hFolder _ _ _ => cases hFile.symm.trans hFolder

theorem exists_listed (hFile : t.locate? path = some (p, .file data)) :
    ∃ listed, (files t [path]).result = .ok listed ∧ (path ∈ listed ↔ IsSource path) := by
  refine ⟨_, result_files t [path], ?_⟩
  rw [Text.mem_ascending, List.flatMap_singleton, mem_listed_filesAt]
  exact ⟨isSource_of_standsFor hFile, .itself hFile⟩

/-- **The two tests for a file**, whatever other handlers a registry has, if none in front of the
language's own is for one of its extensions. They agree just where the name of the file is neither bare
nor recased. A file with a bare name is listed and has no handler, one with a recased name has the
handler and is not listed. -/
theorem recognized_of_file (hFile : t.locate? path = some (p, .file data))
    (hHandlers : r.handlers = before ++ handler :: behind)
    (hOthers : ∀ other ∈ before, ∀ extension ∈ handler.extensions, extension ∉ other.extensions) :
    ∃ listed, (files t [path]).result = .ok listed ∧
      ((path ∈ listed ↔ r.handlerFor? path = some handler) ↔
        ¬ IsBare (lastName path.toList) ∧ ¬ IsRecased (lastName path.toList)) ∧
      (IsBare (lastName path.toList) → path ∈ listed ∧ r.handlerFor? path ≠ some handler) ∧
      (IsRecased (lastName path.toList) → path ∉ listed ∧ r.handlerFor? path = some handler) := by
  obtain ⟨listed, hListed, hMem⟩ := exists_listed hFile
  refine ⟨listed, hListed, ?_⟩
  rw [ne_eq, hMem, isSource_iff, handlerFor?_eq_some_iff hHandlers hOthers, extensionOf_mem_iff]
  generalize lastName path.toList = name
  have hBare (h : IsBare name) : (∃ ending, ending <:+ name ∧ IsExtension ending) ∧
      ¬ ∃ ending, HasEnding name ending ∧ IsExtension (ending.map Char.toLower) :=
    ⟨h.suffix, fun ⟨_, hEnding, hExtension⟩ => h.not_hasEnding hExtension hEnding⟩
  have hRecased (h : IsRecased name) : (¬ ∃ ending, ending <:+ name ∧ IsExtension ending) ∧
      ∃ ending, HasEnding name ending ∧ IsExtension (ending.map Char.toLower) := by
    refine ⟨fun ⟨_, hSuffix, hExtension⟩ => h.not_suffix hExtension hSuffix, ?_⟩
    obtain ⟨ending, hEnding, -, hExtension⟩ := h
    exact ⟨ending, hEnding, hExtension⟩
  refine ⟨⟨fun hAgree => ⟨fun h => ?_, fun h => ?_⟩, fun ⟨hStem, hCase⟩ => ⟨?_, ?_⟩⟩, hBare, hRecased⟩
  · exact (hBare h).2 (hAgree.1 (hBare h).1)
  · exact (hRecased h).1 (hAgree.2 (hRecased h).2)
  · rintro ⟨ending, hSuffix, hExtension⟩
    refine ⟨ending, hasEnding_of_suffix hSuffix hExtension hStem, ?_⟩
    rwa [hExtension.cases.2.2.2]
  · rintro ⟨ending, hEnding, hLower⟩
    by_cases hExtension : IsExtension ending
    · obtain ⟨stem, hName, -⟩ := hEnding
      exact ⟨ending, ⟨stem, hName.symm⟩, hExtension⟩
    · exact absurd ⟨ending, hEnding, hExtension, hLower⟩ hCase

def otherHandler : Handler Language := ⟨"typescript", [".ts"], ⟨"typescript", [], none⟩⟩

/-- A name that is an extension and a dot is listed, and no handler is found for it. -/
theorem recognized_of_file_bare :
    (⟨[], [(["lib", "..js"], .file [])]⟩ : FileTree).locate? "lib/..js" =
        some (["lib", "..js"], .file []) ∧
      (∀ other ∈ [otherHandler], ∀ extension ∈ handler.extensions, extension ∉ other.extensions) ∧
      IsBare (lastName "lib/..js".toList) ∧
      ∃ listed, (files ⟨[], [(["lib", "..js"], .file [])]⟩ ["lib/..js"]).result = .ok listed ∧
        "lib/..js" ∈ listed ∧
        (⟨[], [], [otherHandler, handler]⟩ : Registry Unit Language).handlerFor? "lib/..js" ≠
          some handler := by
  have hLocate : (⟨[], [(["lib", "..js"], .file [])]⟩ : FileTree).locate? "lib/..js" =
      some (["lib", "..js"], .file []) := rfl
  have hHandlers : (⟨[], [], [otherHandler, handler]⟩ : Registry Unit Language).handlers =
      [otherHandler] ++ handler :: [] := rfl
  have hOthers : ∀ other ∈ [otherHandler], ∀ extension ∈ handler.extensions,
      extension ∉ other.extensions := List.forall_mem_singleton.2 (by decide)
  have hBare : IsBare (lastName "lib/..js".toList) :=
    ⟨1, ['.', 'j', 's'], by decide, show String.ofList ['.', 'j', 's'] ∈ _ by decide⟩
  obtain ⟨listed, hListed, -, hDiffer, -⟩ := recognized_of_file hLocate hHandlers hOthers
  exact ⟨hLocate, hOthers, hBare, listed, hListed, hDiffer hBare⟩

/-- A name in capitals is not listed, and has the handler. -/
theorem capitals_not_listed :
    (⟨[], [(["A.JS"], .file [])]⟩ : FileTree).locate? "A.JS" =
        some (["A.JS"], .file []) ∧
      (files ⟨[], [(["A.JS"], .file [])]⟩ ["A.JS"]).result = .ok [] ∧
      Standard.registry.handlerFor? "A.JS" = some handler := by
  refine ⟨rfl, ?_, ?_⟩
  · rw [result_files]
    rfl
  · have hHandlers : Standard.registry.handlers = [] ++ handler :: [] := rfl
    rw [handlerFor?_eq_some_iff hHandlers fun _ h => absurd h List.not_mem_nil]
    decide

end Project

end TidySpace
