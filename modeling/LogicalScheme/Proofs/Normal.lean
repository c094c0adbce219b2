import LogicalScheme.Text
import Mathlib.Data.List.Basic

/-!
This module contains how text comes to its normal form character by character.
-/

namespace LogicalScheme.Text

variable {c d : Char} {cs : List Char}

def squeeze (cs : List Char) : List Char :=
  [' '].intercalate (words cs)

theorem intercalate_cons_word (gap w : List Char) (ws : List (List Char))
    : gap.intercalate ((c :: w) :: ws) = c :: gap.intercalate (w :: ws) := by
  cases ws with
  | nil => rw [List.intercalate_singleton, List.intercalate_singleton]
  | cons w' ws => rw [List.intercalate_cons_cons, List.intercalate_cons_cons, List.cons_append, List.cons_append]

theorem words_blank (hc : isBlank c = true) (cs : List Char) : words (c :: cs) = words cs := by
  unfold words
  rw [List.splitOnP_cons_eq_if_modifyHead, if_pos hc]
  rfl

theorem exists_splitOnP (cs : List Char)
    : ∃ w ws, cs.splitOnP isBlank = w :: ws ∧ (w = [] ↔ ∀ d ∈ cs.head?, isBlank d = true) := by
  cases cs with
  | nil => exact ⟨[], [], rfl, by simp⟩
  | cons d cs =>
    obtain ⟨w, ws, hsplit⟩ := List.exists_cons_of_ne_nil (List.splitOnP_ne_nil isBlank cs)
    rw [List.splitOnP_cons_eq_if_modifyHead, hsplit]
    cases hd : isBlank d with
    | true => exact ⟨[], w :: ws, by simp, by simp [hd]⟩
    | false => exact ⟨d :: w, ws, by simp, by simp [hd]⟩

theorem words_cons (hc : isBlank c = false) (cs : List Char)
    : ((∀ d ∈ cs.head?, isBlank d = true) ∧ words (c :: cs) = [c] :: words cs) ∨
        ∃ w ws, words cs = w :: ws ∧ words (c :: cs) = (c :: w) :: ws := by
  obtain ⟨w, ws, hsplit, hhead⟩ := exists_splitOnP cs
  unfold words
  rw [List.splitOnP_cons_eq_if_modifyHead, hc, hsplit]
  cases w with
  | nil => exact .inl ⟨hhead.mp rfl, by simp⟩
  | cons d w => exact .inr ⟨d :: w, ws.filter (!·.isEmpty), by simp, by simp⟩

theorem squeeze_blank (hc : isBlank c = true) (cs : List Char) : squeeze (c :: cs) = squeeze cs := by
  unfold squeeze
  rw [words_blank hc]

theorem squeeze_cons_cons (hc : isBlank c = false) (hd : isBlank d = false) (cs : List Char)
    : squeeze (c :: d :: cs) = c :: squeeze (d :: cs) := by
  unfold squeeze
  rcases words_cons hc (d :: cs) with ⟨hblank, _⟩ | ⟨w, ws, hwords, hcons⟩
  . rw [hblank d rfl] at hd
    contradiction
  . rw [hcons, hwords, intercalate_cons_word]

theorem words_cons_blank (hc : isBlank c = false) (hd : isBlank d = true) (cs : List Char)
    : words (c :: d :: cs) = [c] :: words cs := by
  unfold words
  rw [List.splitOnP_cons_eq_if_modifyHead, hc, List.splitOnP_cons_eq_if_modifyHead, if_pos hd]
  simp

theorem squeeze_eq_nil_iff : squeeze cs = [] ↔ words cs = [] := by
  unfold squeeze
  cases hwords : words cs with
  | nil => simp
  | cons w ws =>
    have hmem : w ∈ words cs := by
      rw [hwords]
      exact List.mem_cons_self
    have hne : w ≠ [] := by simpa using (List.mem_filter.mp hmem).right
    cases ws <;> simp [hne]

theorem squeeze_cons (hc : isBlank c = false) (cs : List Char)
    : squeeze (c :: cs) = c :: squeeze cs ∨
        (squeeze (c :: cs) = c :: ' ' :: squeeze cs ∧ squeeze cs ≠ []) := by
  rw [ne_eq, squeeze_eq_nil_iff]
  unfold squeeze
  rcases words_cons hc cs with ⟨_, hcons⟩ | ⟨w, ws, hwords, hcons⟩
  . rw [hcons]
    cases words cs with
    | nil => exact .inl rfl
    | cons w ws => exact .inr ⟨by rw [List.intercalate_cons_cons]; rfl, by simp⟩
  . rw [hcons, hwords, intercalate_cons_word]
    exact .inl rfl

theorem squeeze_cons_blank (hc : isBlank c = false) (hd : isBlank d = true) (hcs : squeeze cs ≠ [])
    : squeeze (c :: d :: cs) = c :: ' ' :: squeeze cs := by
  rw [ne_eq, squeeze_eq_nil_iff] at hcs
  obtain ⟨w, ws, hwords⟩ := List.exists_cons_of_ne_nil hcs
  unfold squeeze
  rw [words_cons_blank hc hd, hwords, List.intercalate_cons_cons]
  rfl

theorem normalizeChars_eq (cs : List Char)
    : normalizeChars cs = squeeze ((cs.filter (!isGrouping ·)).map normalizeChar) := rfl

theorem isBlank_normalizeChar (c : Char) : isBlank (normalizeChar c) = isBlank c := by
  unfold normalizeChar
  split <;> rfl

theorem normalizeChars_skip (hc : isBlank c = true ∨ isGrouping c = true) (cs : List Char)
    : normalizeChars (c :: cs) = normalizeChars cs := by
  rw [normalizeChars_eq, normalizeChars_eq]
  cases hgrouping : isGrouping c with
  | true => rw [List.filter_cons_of_neg (by simp [hgrouping])]
  | false =>
    rw [hgrouping] at hc
    rw [List.filter_cons_of_pos (by simp [hgrouping]), List.map_cons]
    apply squeeze_blank
    rw [isBlank_normalizeChar]
    exact hc.resolve_right Bool.false_ne_true

theorem normalizeChars_append (gap : List Char) (h : ∀ c ∈ gap, isBlank c = true ∨ isGrouping c = true)
    (cs : List Char) : normalizeChars (gap ++ cs) = normalizeChars cs := by
  induction gap with
  | nil => rfl
  | cons c gap ih =>
    rw [List.cons_append, normalizeChars_skip (h c List.mem_cons_self)]
    exact ih fun x hx => h x (List.mem_cons_of_mem c hx)

def isKept (c : Char) : Bool :=
  !isBlank c && !isGrouping c

theorem isKept_iff : isKept c = true ↔ isBlank c = false ∧ isGrouping c = false := by
  simp [isKept]

theorem normalizeChars_cons_cons (hc : isKept c = true) (hd : isKept d = true) (cs : List Char)
    : normalizeChars (c :: d :: cs) = normalizeChar c :: normalizeChars (d :: cs) := by
  obtain ⟨hblank, hgrouping⟩ := isKept_iff.mp hc
  obtain ⟨hblank', hgrouping'⟩ := isKept_iff.mp hd
  have hfilter : (d :: cs).filter (!isGrouping ·) = d :: cs.filter (!isGrouping ·) :=
    List.filter_cons_of_pos (by simp [hgrouping'])
  rw [normalizeChars_eq, normalizeChars_eq, List.filter_cons_of_pos (by simp [hgrouping]), hfilter]
  apply squeeze_cons_cons
  . rw [isBlank_normalizeChar, hblank]
  . rw [isBlank_normalizeChar, hblank']

theorem normalizeChars_word {raw : List Char} (hne : raw ≠ []) (hraw : ∀ c ∈ raw, isKept c = true)
    (rest : List Char)
    : ∃ gap, (∀ c ∈ gap, isBlank c = true) ∧
        normalizeChars (raw ++ rest) = raw.map normalizeChar ++ (gap ++ normalizeChars rest) := by
  induction raw with
  | nil => contradiction
  | cons c raw ih =>
    have hc := hraw c List.mem_cons_self
    cases raw with
    | nil =>
      obtain ⟨hblank, hgrouping⟩ := isKept_iff.mp hc
      rw [List.singleton_append, List.map_singleton, normalizeChars_eq, normalizeChars_eq,
        List.filter_cons_of_pos (by simp [hgrouping]), List.map_cons]
      rw [← isBlank_normalizeChar] at hblank
      cases squeeze_cons hblank ((rest.filter (!isGrouping ·)).map normalizeChar) with
      | inl h => exact ⟨[], by simp, h⟩
      | inr h => exact ⟨[' '], by simp [isBlank], h.left⟩
    | cons d raw =>
      -- no space comes between two characters of a word
      have hd := hraw d (List.mem_cons_of_mem c List.mem_cons_self)
      obtain ⟨gap, hgap, hrest⟩ := ih (by simp) fun x hx => hraw x (List.mem_cons_of_mem c hx)
      refine ⟨gap, hgap, ?_⟩
      rw [List.cons_append, List.cons_append, normalizeChars_cons_cons hc hd, ← List.cons_append, hrest]
      rfl

end LogicalScheme.Text
