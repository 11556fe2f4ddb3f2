import TidySpace.Proofs.Splicing
import TidySpace.Proofs.Utf8
import TidySpace.Text.Blank

/-! # Edits of white space

An edit of a text is *blank* if it puts white space in the place of white space and cuts no
character; one that reaches past the text does nothing and counts as blank too. A batch of blank
edits always makes a text (`applied?_blank`), whatever is selected from it, and that text differs
from the old one in white space only.
-/

namespace TidySpace

namespace Text

/-- The characters of a text that are no white space. -/
def solid (cs : List Char) : List Char := cs.filter fun c => !isBlank c

@[simp] theorem solid_append (cs ds : List Char) : solid (cs ++ ds) = solid cs ++ solid ds :=
  List.filter_append ..

theorem solid_of_allBlank {cs : List Char} (h : allBlank cs = true) : solid cs = [] := by
  rw [allBlank, List.all_eq_true] at h
  exact List.filter_eq_nil_iff.2 fun c hc => by rw [h c hc]; decide

/-- A blank text holds no replacement character. -/
theorem replacement_not_mem {cs : List Char} (h : allBlank cs = true) : Char.ofNat 0xFFFD ∉ cs := by
  intro hMem
  rw [allBlank, List.all_eq_true] at h
  exact absurd (h _ hMem) (by decide)

theorem allBlank_of_isGap {cs : List Char} (h : cs.all isGap = true) : allBlank cs = true := by
  rw [List.all_eq_true] at h
  exact List.all_eq_true.2 fun c hc => isBlank_of_isGap (h c hc)

end Text

namespace Edit

/-- An edit whose range begins and ends at characters of a text, with what stands in the range. -/
def Cuts (text : List Char) (e : Edit) (mid : List Char) : Prop :=
  ∃ pre post, text = pre ++ (mid ++ post) ∧ e.start = Utf8.width pre ∧
    e.stop = Utf8.width pre + Utf8.width mid

/-- An edit of a text that changes white space at most. -/
structure IsBlank (text : List Char) (e : Edit) : Prop where
  replacement : Text.allBlank e.replacement = true
  range : (Utf8.width text : Int) < e.stop ∨ ∃ mid, e.Cuts text mid ∧ Text.allBlank mid = true

theorem spliceAll_past {es : List Edit} {data : List UInt8}
    (h : ∀ e ∈ es, (data.length : Int) < e.stop) : spliceAll es data = data := by
  induction es with
  | nil => rfl
  | cons e es ih =>
    have ih := ih fun f hf => h f (List.mem_cons_of_mem e hf)
    rw [spliceAll] at ih
    rw [spliceAll, List.foldr_cons, ih, splice, if_pos (h e List.mem_cons_self)]

theorem spliceAll_blank {text : List Char} {es : List Edit} (hOrdered : Ordered es)
    (hBlank : ∀ e ∈ es, e.IsBlank text) :
    ∃ fixed, spliceAll es (Utf8.encode text) = Utf8.encode fixed ∧
      Text.solid fixed = Text.solid text := by
  induction es with
  | nil => exact ⟨text, rfl, rfl⟩
  | cons e es ih =>
    have hHead := hBlank e List.mem_cons_self
    rcases hHead.range with hPast | ⟨mid, ⟨pre, post, rfl, hStart, hStop⟩, hMid⟩
    · -- If the first edit reaches past the text, so do those behind it.
      refine ⟨text, spliceAll_past fun f hf => ?_, rfl⟩
      rw [Utf8.width] at hPast
      rcases List.mem_cons.1 hf with rfl | hf
      · exact hPast
      · have := hOrdered.head_le f hf
        have := hOrdered.tail.forward f hf
        omega
    · -- The other edits leave alone what stands before them, where this edit is then made.
      obtain ⟨fixed, hFixed, hSolid⟩ := ih hOrdered.tail fun f hf => hBlank f (List.mem_cons_of_mem e hf)
      have hFront := @spliceAll_front es (Utf8.encode (pre ++ mid)) (Utf8.encode post)
        hOrdered.tail.forward fun f hf => by
          have := hOrdered.head_le f hf
          rw [← Utf8.width, Utf8.width_append]
          omega
      rw [← Utf8.encode_append, List.append_assoc, hFixed] at hFront
      obtain ⟨rest, rfl, hRest⟩ := Utf8.prefix_of_encode hFront
      refine ⟨pre ++ (e.replacement ++ rest), ?_, ?_⟩
      · rw [spliceAll, List.foldr_cons, ← spliceAll, hFixed, List.append_assoc, Utf8.encode_append,
          Utf8.encode_append, splice_cut hStart hStop, Utf8.encode_append, Utf8.encode_append]
      · simp only [Text.solid_append, Text.solid_of_allBlank hMid,
          Text.solid_of_allBlank hHead.replacement, List.append_nil, List.nil_append] at hSolid ⊢
        exact hSolid

/-- **Blank edits always make a text**, and it differs from the old one in white space only. -/
theorem applied?_blank {text : List Char} {edits : List Edit} (h : ∀ e ∈ edits, e.IsBlank text) :
    ∃ fixed, applied? text edits = some fixed ∧
      spliceAll (select edits).accepted (Utf8.encode text) = Utf8.encode fixed ∧
      Text.solid fixed = Text.solid text := by
  obtain ⟨fixed, hFixed, hSolid⟩ :=
    spliceAll_blank (ordered_select edits) fun e he => h e (mem_of_mem_select he)
  refine ⟨fixed, ?_, hFixed, hSolid⟩
  rw [applied?]
  split
  next hNone =>
    rw [List.isEmpty_iff.1 hNone] at hFixed
    rw [Utf8.encode_injective hFixed]
  next => rw [hFixed, Utf8.decode?_encode]

end Edit

end TidySpace
