import LogicalScheme.Proofs.Normal
import LogicalScheme.Proofs.Parsed
import LogicalScheme.Scheme
import Mathlib.Data.List.Chain

/-!
This module contains the texts that normalization leaves as they are. They are the texts that it makes, so to
normalize a second time changes nothing and a scheme can be read again from its normalized text.
-/

namespace LogicalScheme

namespace Text

variable {c d : Char} {cs : List Char}

structure Spaced (cs : List Char) : Prop where
  first : ∀ c ∈ cs.head?, isBlank c = false
  last : ∀ c ∈ cs.getLast?, isBlank c = false
  single : cs.IsChain fun c d => isBlank c = false ∨ isBlank d = false
  spaces : ∀ c ∈ cs, isBlank c = true → c = ' '

/--
The normal form of scheme text, as a property: it is spaced and has no character that normalization drops or
spells otherwise.
-/
structure Normal (cs : List Char) : Prop extends Spaced cs where
  letters : ∀ c ∈ cs, c ∉ ['(', ')', '|', 'y', 'x', 'p', 'W', 'Н', 'К']

namespace Spaced

theorem nil : Spaced [] where
  first := by simp
  last := by simp
  single := .nil
  spaces := by simp

theorem cons (hc : isBlank c = false) (h : Spaced cs) : Spaced (c :: cs) where
  first := by simpa using hc
  last := by
    intro x hx
    cases cs with
    | nil =>
      cases hx
      exact hc
    | cons d cs => exact h.last x (by simpa using hx)
  single := by
    rw [List.isChain_cons]
    exact ⟨fun d _ => .inl hc, h.single⟩
  spaces := by
    intro x hx hblank
    cases List.mem_cons.mp hx with
    | inl heq =>
      rw [heq, hc] at hblank
      contradiction
    | inr hx => exact h.spaces x hx hblank

theorem cons_space (hc : isBlank c = false) (hcs : cs ≠ []) (h : Spaced cs) : Spaced (c :: ' ' :: cs) where
  first := by simpa using hc
  last := by
    obtain ⟨d, ds, rfl⟩ := List.exists_cons_of_ne_nil hcs
    intro x hx
    exact h.last x (by simpa using hx)
  single := by
    rw [List.isChain_cons, List.isChain_cons]
    refine ⟨fun d _ => .inl hc, ?_, h.single⟩
    intro d hd
    exact .inr (h.first d hd)
  spaces := by
    intro x hx hblank
    rw [List.mem_cons, List.mem_cons] at hx
    rcases hx with rfl | rfl | hx
    . rw [hc] at hblank
      contradiction
    . rfl
    . exact h.spaces x hx hblank

theorem tail (h : Spaced (c :: d :: cs)) (hd : isBlank d = false) : Spaced (d :: cs) where
  first := by simpa using hd
  last := fun x hx => h.last x (by simpa using hx)
  single := h.single.tail
  spaces := fun x hx => h.spaces x (List.mem_cons_of_mem c hx)

theorem tail_of_blank (h : Spaced (c :: d :: cs)) (hd : isBlank d = true) : d = ' ' ∧ cs ≠ [] ∧ Spaced cs := by
  have hne : cs ≠ [] := by
    intro hnil
    have hlast := h.last d (by simp [hnil])
    rw [hd] at hlast
    contradiction
  obtain ⟨e, es, rfl⟩ := List.exists_cons_of_ne_nil hne
  refine ⟨h.spaces d (by simp) hd, hne, ?_, ?_, h.single.tail.tail, ?_⟩
  . have hchain := h.single
    rw [List.isChain_cons_cons, List.isChain_cons_cons, hd] at hchain
    simpa using hchain.right.left
  . exact fun x hx => h.last x (by simpa using hx)
  . exact fun x hx => h.spaces x (List.mem_cons_of_mem c (List.mem_cons_of_mem d hx))

end Spaced

theorem spaced_squeeze (cs : List Char) : Spaced (squeeze cs) := by
  induction cs with
  | nil => exact .nil
  | cons c cs ih =>
    cases hc : isBlank c with
    | true =>
      rw [squeeze_blank hc]
      exact ih
    | false =>
      rcases squeeze_cons hc cs with h | ⟨h, hne⟩
      . rw [h]
        exact ih.cons hc
      . rw [h]
        exact ih.cons_space hc hne

theorem squeeze_eq_self : ∀ {cs : List Char}, Spaced cs → squeeze cs = cs
  | [], _ => rfl
  | [c], h => by
    have hc : isBlank c = false := h.first c rfl
    rcases squeeze_cons hc [] with h | ⟨_, hne⟩
    . exact h
    . contradiction
  | c :: d :: cs, h => by
    have hc : isBlank c = false := h.first c rfl
    cases hd : isBlank d with
    | false => rw [squeeze_cons_cons hc hd, squeeze_eq_self (h.tail hd)]
    | true =>
      obtain ⟨rfl, hne, hcs⟩ := h.tail_of_blank hd
      have hself := squeeze_eq_self hcs
      rw [← hself] at hne
      rw [squeeze_cons_blank hc hd hne, hself]

theorem not_mem_of_normalizeChar (hc : isGrouping c = false)
    : normalizeChar c ∉ ['(', ')', '|', 'y', 'x', 'p', 'W', 'Н', 'К'] := by
  unfold normalizeChar
  split
  all_goals simp_all [isGrouping]

theorem normalizeChar_eq_self (hc : c ∉ ['(', ')', '|', 'y', 'x', 'p', 'W', 'Н', 'К'])
    : isGrouping c = false ∧ normalizeChar c = c := by
  simp only [List.mem_cons, List.not_mem_nil, or_false, not_or] at hc
  constructor
  . simp [isGrouping, hc]
  . unfold normalizeChar
    split <;> simp_all

theorem mem_squeeze (h : c ∈ squeeze cs) : c ∈ cs ∨ c = ' ' := by
  induction cs with
  | nil => contradiction
  | cons d cs ih =>
    have hrest : c ∈ squeeze cs → c ∈ d :: cs ∨ c = ' ' := fun h => (ih h).imp_left (List.mem_cons_of_mem d)
    cases hd : isBlank d with
    | true =>
      rw [squeeze_blank hd] at h
      exact hrest h
    | false =>
      rcases squeeze_cons hd cs with hcons | ⟨hcons, _⟩
      . rw [hcons, List.mem_cons] at h
        rcases h with rfl | h
        . exact .inl List.mem_cons_self
        . exact hrest h
      . rw [hcons, List.mem_cons, List.mem_cons] at h
        rcases h with rfl | heq | h
        . exact .inl List.mem_cons_self
        . exact .inr heq
        . exact hrest h

theorem normal_normalizeChars (cs : List Char) : Normal (normalizeChars cs) where
  toSpaced := spaced_squeeze _
  letters := by
    intro c hc
    rw [normalizeChars_eq] at hc
    cases mem_squeeze hc with
    | inl hc =>
      obtain ⟨d, hd, rfl⟩ := List.mem_map.mp hc
      have hgrouping := (List.mem_filter.mp hd).right
      exact not_mem_of_normalizeChar (by simpa using hgrouping)
    | inr heq =>
      rw [heq]
      decide

theorem normalizeChars_eq_self (h : Normal cs) : normalizeChars cs = cs := by
  have hletters : ∀ c ∈ cs, isGrouping c = false ∧ normalizeChar c = c :=
    fun c hc => normalizeChar_eq_self (h.letters c hc)
  have hfilter : cs.filter (!isGrouping ·) = cs := by
    rw [List.filter_eq_self]
    intro c hc
    simp [(hletters c hc).left]
  have hmap : cs.map normalizeChar = cs := by
    rw [List.map_congr_left fun c hc => (hletters c hc).right, List.map_id']
  rw [normalizeChars_eq, hfilter, hmap]
  exact squeeze_eq_self h.toSpaced

theorem normal_normalize (text : String) : Normal (normalize text).toList := by
  unfold normalize
  rw [String.toList_ofList]
  exact normal_normalizeChars text.toList

theorem normalize_eq_self_iff {text : String} : normalize text = text ↔ Normal text.toList := by
  constructor
  . intro h
    rw [← h]
    exact normal_normalize text
  . intro h
    unfold normalize
    rw [normalizeChars_eq_self h, String.ofList_toList]

theorem normalize_normalize (text : String) : normalize (normalize text) = normalize text :=
  normalize_eq_self_iff.mpr (normal_normalize text)

end Text

theorem Parsed.ofText_normalize (text : String) : ofText (Text.normalize text) = ofText text := by
  unfold ofText
  rw [Text.normalize_normalize]

theorem Parsed.source_ofText (text : String) : (ofText text).automaton.source = Text.normalize text := by
  rw [ofText_eq]
  rfl

theorem Scheme.parse_normalize (settings : Settings) (text : String)
    : parse settings (Text.normalize text) = parse settings text := by
  unfold parse LogicalScheme.parse
  rw [Parsed.ofText_normalize, Text.normalize_normalize]

/--
Normalization makes exactly the texts that it leaves as they are, and the normalized text of an automaton reads
back as the same automaton with the same lexemes and diagnostics.
-/
theorem normalize_exact
    : (∀ text, Text.Normal (Text.normalize text).toList) ∧
        (∀ text, Text.normalize text = text ↔ Text.Normal text.toList) ∧
        (∀ text, Text.normalize (Text.normalize text) = Text.normalize text) ∧
        ∀ text, let source := (Parsed.ofText text).automaton.source
          source = Text.normalize text ∧ Parsed.ofText source = Parsed.ofText text ∧
            parse source = parse text ∧ ∀ settings, Scheme.parse settings source = Scheme.parse settings text := by
  refine ⟨Text.normal_normalize, fun _ => Text.normalize_eq_self_iff, Text.normalize_normalize, ?_⟩
  intro text source
  have hsource : source = Text.normalize text := Parsed.source_ofText text
  rw [hsource]
  refine ⟨rfl, Parsed.ofText_normalize text, ?_, fun settings => Scheme.parse_normalize settings text⟩
  unfold parse
  rw [Parsed.ofText_normalize]

end LogicalScheme
