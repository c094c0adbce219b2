import LogicalScheme.Piece
import Mathlib.Data.Set.Basic

/-!
This module contains what becomes of each character of a text that holds more than tokens: it is
in one span, a blank, or the letter of an operator whose number is missing. These letters are lost
without a report, and what stands behind them is reported even where a token could be scanned.
-/

namespace LogicalScheme

namespace Text

/--
The characters `rest` are what is left of a text at byte `place`, where the text `cs` itself starts at
byte `offset`.
-/
def Place (offset : Nat) (cs : List Char) (place : Nat) (rest : List Char) : Prop :=
  ∃ before, cs = before ++ rest ∧ place = offset + width before

variable {offset place : Nat} {c : Char} {cs rest : List Char}

theorem Place.bounds (h : Place offset cs place (c :: rest))
    : offset ≤ place ∧ place < offset + width cs := by
  obtain ⟨before, rfl, rfl⟩ := h
  have := c.utf8Size_pos
  rw [width_append, width_cons]
  omega

theorem Place.append (front : List Char) (h : Place (offset + width front) cs place rest)
    : Place offset (front ++ cs) place rest := by
  obtain ⟨before, rfl, rfl⟩ := h
  refine ⟨front ++ before, by rw [List.append_assoc], ?_⟩
  rw [width_append, Nat.add_assoc]

theorem Place.cons_cases (h : Place offset (c :: cs) place rest)
    : (place = offset ∧ rest = c :: cs) ∨ Place (offset + c.utf8Size) cs place rest := by
  obtain ⟨before, hcs, rfl⟩ := h
  cases before with
  | nil => exact .inl ⟨rfl, hcs.symm⟩
  | cons b before =>
    cases hcs
    exact .inr ⟨before, rfl, by rw [width_cons, Nat.add_assoc]⟩

theorem Place.of_le (front : List Char) (h : Place offset (front ++ cs) place rest)
    (hle : offset + width front ≤ place) : Place (offset + width front) cs place rest := by
  induction front generalizing offset with
  | nil => exact h
  | cons c front ih =>
    rw [width_cons, ← Nat.add_assoc] at hle ⊢
    cases Place.cons_cases h with
    | inl h =>
      have := c.utf8Size_pos
      omega
    | inr h => exact ih h hle

end Text

open Text (Place)

def Span.Contains (s : Span) (place : Nat) : Prop :=
  s.start ≤ place ∧ place < s.stop

namespace Piece

variable {offset place : Nat} {x : Char} {cs r : List Char}

def span : Piece → Span
  | lexeme l => l.span
  | unrecognized s => s

@[simp]
theorem span_lexeme (l : Lexeme) : (lexeme l).span = l.span := rfl

@[simp]
theorem span_unrecognized (s : Span) : (unrecognized s).span = s := rfl

theorem upToNext_inside (h : Place offset cs place (x :: r)) (hlt : place < offset + Text.width (upToNext cs))
    : Text.isBlank x = false ∧ Token.scan? (x :: r) = none := by
  induction cs generalizing offset with
  | nil =>
    have := h.bounds
    rw [Text.width_nil] at this
    omega
  | cons c cs ih =>
    unfold upToNext at hlt
    split at hlt
    . have := h.bounds
      rw [Text.width_nil] at hlt
      omega
    . next hnext =>
      rw [Text.width_cons, ← Nat.add_assoc] at hlt
      cases h.cons_cases with
      | inl h =>
        cases h.right
        simpa using hnext
      | inr h => exact ih h hlt

theorem upToNext_stops (cs : List Char)
    : ∃ rest, cs = upToNext cs ++ rest
        ∧ ∀ c ∈ rest.head?, Text.isBlank c = true ∨ (Token.scan? rest).isSome = true := by
  induction cs with
  | nil => exact ⟨[], rfl, by simp⟩
  | cons c cs ih =>
    unfold upToNext
    split
    . next hnext =>
      refine ⟨c :: cs, rfl, ?_⟩
      intro x hx
      cases hx
      simpa using hnext
    . obtain ⟨rest, hcs, hrest⟩ := ih
      exact ⟨rest, by rw [List.cons_append, ← hcs], hrest⟩

/--
The run takes its first character as it is, and only what follows is looked at.
-/
def runFrom : List Char → List Char
  | [] => []
  | c :: cs => c :: upToNext cs

theorem recover_cases (c : Char) (cs : List Char)
    : ((recover (c :: cs)).lost = [] ∧ (recover (c :: cs)).run = runFrom (c :: cs))
        ∨ (c = 'Y' ∧ (recover (c :: cs)).lost = ['Y'] ∧ (recover (c :: cs)).run = runFrom cs) := by
  unfold recover
  split
  . next heq =>
    cases heq
    exact .inr ⟨rfl, rfl, rfl⟩
  . next heq =>
    cases heq
    exact .inr ⟨rfl, rfl, rfl⟩
  . next heq =>
    cases heq
    exact .inl ⟨rfl, rfl⟩
  . contradiction

theorem runFrom_inside (h : Place offset cs place (x :: r)) (hlt : place < offset + Text.width (runFrom cs))
    : place = offset ∨ (Text.isBlank x = false ∧ Token.scan? (x :: r) = none) := by
  cases cs with
  | nil =>
    have := h.bounds
    rw [Text.width_nil] at this
    omega
  | cons c cs =>
    cases h.cons_cases with
    | inl h => exact .inl h.left
    | inr h =>
      rw [runFrom, Text.width_cons, ← Nat.add_assoc] at hlt
      exact .inr (upToNext_inside h hlt)

theorem runFrom_stops (offset : Nat) (cs : List Char)
    : ∃ rest, Place offset cs (offset + Text.width (runFrom cs)) rest
        ∧ ∀ c ∈ rest.head?, Text.isBlank c = true ∨ (Token.scan? rest).isSome = true := by
  cases cs with
  | nil => exact ⟨[], ⟨[], rfl, rfl⟩, by simp⟩
  | cons c cs =>
    obtain ⟨rest, hcs, hrest⟩ := upToNext_stops cs
    refine ⟨rest, ⟨runFrom (c :: cs), ?_, rfl⟩, hrest⟩
    rw [runFrom, List.cons_append, ← hcs]

theorem width_recover (cs : List Char)
    : Text.width (recover cs).lost + Text.width (recover cs).run + Text.width (recover cs).rest =
        Text.width cs := by
  rw [← Text.width_append, ← Text.width_append, recover_append]

theorem width_match {m : Token.Match} (h : Token.scan? cs = some m)
    : Text.width m.text + Text.width m.rest = Text.width cs := by
  rw [← Text.width_append, Token.scan?_text_append_rest h]

theorem bounds_of_mem_split : ∀ p ∈ split offset cs,
    offset ≤ p.span.start ∧ p.span.start ≤ p.span.stop ∧ p.span.stop ≤ offset + Text.width cs := by
  fun_induction split offset cs with
  | case1 => simp
  | case2 offset c cs hblank ih =>
    intro p hp
    have := ih p hp
    rw [Text.width_cons]
    omega
  | case3 offset c cs hblank m hscan stop ih =>
    have := width_match hscan
    intro p hp
    cases List.mem_cons.mp hp with
    | inl heq =>
      subst heq
      dsimp only [span]
      omega
    | inr hmem =>
      have := ih p hmem
      omega
  | case4 offset c cs hblank hscan r start stop ih =>
    have : Text.width r.lost + Text.width r.run + Text.width r.rest = _ := width_recover (c :: cs)
    intro p hp
    cases List.mem_cons.mp hp with
    | inl heq =>
      subst heq
      dsimp only [span]
      omega
    | inr hmem =>
      have := ih p hmem
      omega

theorem pairwise_split : (split offset cs).Pairwise (fun p q => p.span.stop ≤ q.span.start) := by
  fun_induction split offset cs with
  | case1 => exact .nil
  | case2 offset c cs hblank ih => exact ih
  | case3 offset c cs hblank m hscan stop ih =>
    refine .cons ?_ ih
    intro q hq
    exact (bounds_of_mem_split q hq).left
  | case4 offset c cs hblank hscan r start stop ih =>
    refine .cons ?_ ih
    intro q hq
    exact (bounds_of_mem_split q hq).left

theorem pairwise_lexemes (text : String)
    : (lexemes (ofText text)).Pairwise fun l k => l.span.stop ≤ k.span.start := by
  unfold lexemes
  rw [List.pairwise_filterMap]
  apply pairwise_split.imp
  intro piece piece' hle l hl k hk
  cases piece <;> cases hl
  cases piece' <;> cases hk
  exact hle

/--
The places of letters `Y` at which no token can be scanned and which are in none of the spans.
-/
def lost (spans : List Span) (offset : Nat) (cs : List Char) : Set Nat :=
  { y | (∃ rest, Place offset cs y ('Y' :: rest) ∧ Token.scan? ('Y' :: rest) = none)
          ∧ ∀ s ∈ spans, ¬s.Contains y }

theorem mem_lost_head {spans : List Span} (hscan : Token.scan? ('Y' :: cs) = none)
    (hspans : ∀ s ∈ spans, offset < s.start) : offset ∈ lost spans offset ('Y' :: cs) := by
  refine ⟨⟨cs, ⟨[], rfl, rfl⟩, hscan⟩, ?_⟩
  intro s hs hcontains
  have := hspans s hs
  unfold Span.Contains at hcontains
  omega

/--
What is known of a piece: it is not empty and holds only what could not be read, but for a run right
behind a lost character, which has whatever stands there as its first character.
-/
structure Sound (spans : List Span) (offset : Nat) (cs : List Char) (p : Piece) : Prop where
  nonempty : p.span.start < p.span.stop
    ∨ (p = unrecognized p.span ∧ p.span = .empty (offset + Text.width cs)
        ∧ ∃ y ∈ lost spans offset cs, p.span.start = y + 1)
  inside : p = unrecognized p.span →
    ∀ {place x r}, Place offset cs place (x :: r) → p.span.Contains place →
      (Text.isBlank x = false ∧ Token.scan? (x :: r) = none)
        ∨ (place = p.span.start ∧ ∃ y ∈ lost spans offset cs, p.span.start = y + 1)
  stops : p = unrecognized p.span →
    ∃ rest, Place offset cs p.span.stop rest
      ∧ ∀ c ∈ rest.head?, Text.isBlank c = true ∨ (Token.scan? rest).isSome = true

section Tail

variable {front rest : List Char} (earlier : List Span) {spans : List Span} {stop : Nat}
  (hcs : front ++ rest = cs) (hstop : offset + Text.width front = stop)
  (hearlier : ∀ s ∈ earlier, s.stop ≤ stop)

include hcs hstop hearlier

theorem mem_lost_of_tail {y : Nat} (h : y ∈ lost spans stop rest) : y ∈ lost (earlier ++ spans) offset cs := by
  subst hcs hstop
  obtain ⟨⟨rest, hplace, hscan⟩, hspans⟩ := h
  refine ⟨⟨rest, hplace.append front, hscan⟩, ?_⟩
  have := hplace.bounds
  intro s hs hcontains
  cases List.mem_append.mp hs with
  | inl hmem =>
    have := hearlier s hmem
    unfold Span.Contains at hcontains
    omega
  | inr hmem => exact hspans s hmem hcontains

theorem Sound.of_tail {p : Piece} (h : Sound spans stop rest p) (hp : stop ≤ p.span.start)
    : Sound (earlier ++ spans) offset cs p := by
  have hbehind : (∃ y ∈ lost spans stop rest, p.span.start = y + 1) →
      ∃ y ∈ lost (earlier ++ spans) offset cs, p.span.start = y + 1 := by
    rintro ⟨y, hy, hstart⟩
    exact ⟨y, mem_lost_of_tail earlier hcs hstop hearlier hy, hstart⟩
  subst hcs hstop
  constructor
  . cases h.nonempty with
    | inl hlt => exact .inl hlt
    | inr hempty =>
      rw [Text.width_append, ← Nat.add_assoc]
      exact .inr ⟨hempty.left, hempty.right.left, hbehind hempty.right.right⟩
  . intro hrun place x r hplace hcontains
    have htail := hplace.of_le front (Nat.le_trans hp hcontains.left)
    cases h.inside hrun htail hcontains with
    | inl hunread => exact .inl hunread
    | inr hstart => exact .inr ⟨hstart.left, hbehind hstart.right⟩
  . intro hrun
    obtain ⟨rest, hplace, hrest⟩ := h.stops hrun
    exact ⟨rest, hplace.append front, hrest⟩

end Tail

theorem sound_run {c : Char} (spans : List Span) (hblank : Text.isBlank c = false)
    (hscan : Token.scan? (c :: cs) = none)
    : Sound spans offset (c :: cs) (unrecognized ⟨offset, offset + Text.width (runFrom (c :: cs))⟩) := by
  constructor
  . have := c.utf8Size_pos
    simp only [span_unrecognized, runFrom, Text.width_cons]
    omega
  . intro _ place x r hplace hcontains
    left
    cases runFrom_inside hplace hcontains.right with
    | inl heq =>
      cases hplace.cons_cases with
      | inl h =>
        cases h.right
        exact ⟨hblank, hscan⟩
      | inr h =>
        have := h.bounds
        have := c.utf8Size_pos
        omega
    | inr h => exact h
  . intro _
    exact runFrom_stops offset (c :: cs)

theorem sound_behind {spans : List Span} (hlost : offset ∈ lost spans offset ('Y' :: cs))
    : Sound spans offset ('Y' :: cs)
        (unrecognized ⟨offset + 1, offset + 1 + Text.width (runFrom cs)⟩) := by
  constructor
  . cases cs with
    | nil => exact .inr ⟨rfl, rfl, offset, hlost, rfl⟩
    | cons c cs =>
      have := c.utf8Size_pos
      simp only [span_unrecognized, runFrom, Text.width_cons]
      omega
  . intro _ place x r hplace hcontains
    have htail : Place (offset + 1) cs place (x :: r) := hplace.of_le ['Y'] hcontains.left
    cases runFrom_inside htail hcontains.right with
    | inl heq => exact .inr ⟨heq, offset, hlost, rfl⟩
    | inr h => exact .inl h
  . intro _
    obtain ⟨rest, hplace, hrest⟩ := runFrom_stops (offset + 1) cs
    exact ⟨rest, hplace.append ['Y'], hrest⟩

theorem sound_of_mem_split : ∀ p ∈ split offset cs, Sound ((split offset cs).map span) offset cs p := by
  fun_induction split offset cs with
  | case1 => simp
  | case2 offset c cs hblank ih =>
    -- a letter that is lost in the rest is lost in the whole too, as no earlier span reaches it
    intro p hp
    have hbounds := bounds_of_mem_split p hp
    exact (ih p hp).of_tail [] (List.singleton_append ..) rfl (by simp) hbounds.left
  | case3 offset c cs hblank m hscan stop ih =>
    intro p hp
    cases List.mem_cons.mp hp with
    | inl heq =>
      subst heq
      constructor
      . have := width_match hscan
        have hne := Token.scan?_text_ne_nil hscan
        obtain ⟨x, xs, hcons⟩ := List.exists_cons_of_ne_nil hne
        have := x.utf8Size_pos
        simp only [span_lexeme, stop, hcons, Text.width_cons]
        omega
      . intro h
        contradiction
      . intro h
        contradiction
    | inr hmem =>
      have hbounds := bounds_of_mem_split p hmem
      exact (ih p hmem).of_tail [_] (Token.scan?_text_append_rest hscan) rfl (by simp [stop]) hbounds.left
  | case4 offset c cs hblank hscan r start stop ih =>
    intro p hp
    cases List.mem_cons.mp hp with
    | inl heq =>
      subst heq
      simp only [Bool.not_eq_true] at hblank
      rcases recover_cases c cs with ⟨hlost, hrun⟩ | ⟨rfl, hlost, hrun⟩
      . simp only [stop, start, r, hlost, hrun, Text.width_nil, Nat.add_zero]
        exact sound_run _ hblank hscan
      . have hstart : start = offset + 1 := by simp only [start, r, hlost]; rfl
        simp only [stop, hstart, r, hrun]
        apply sound_behind
        apply mem_lost_head hscan
        intro s hs
        obtain ⟨q, hq, rfl⟩ := List.mem_map.mp hs
        cases List.mem_cons.mp hq with
        | inl heq =>
          subst heq
          simp
        | inr hmem =>
          have := bounds_of_mem_split q hmem
          omega
    | inr hmem =>
      have hbounds := bounds_of_mem_split p hmem
      exact (ih p hmem).of_tail [_] (recover_append (c :: cs))
        (by simp [stop, start, r, Nat.add_assoc]) (by simp) hbounds.left

theorem nonempty_of_lexeme {l : Lexeme} (h : .lexeme l ∈ split offset cs) : l.span.start < l.span.stop := by
  cases (sound_of_mem_split _ h).nonempty with
  | inl hlt => exact hlt
  | inr hempty =>
    have hrun := hempty.left
    contradiction

theorem outside_of_split (h : Place offset cs place (x :: r))
    (hout : ∀ p ∈ split offset cs, ¬p.span.Contains place)
    : Text.isBlank x = true
        ∨ (x = 'Y' ∧ Token.scan? (x :: r) = none
            ∧ ∃ s, unrecognized s ∈ split offset cs ∧ s.start = place + 1) := by
  fun_induction split offset cs with
  | case1 =>
    have := h.bounds
    rw [Text.width_nil] at this
    omega
  | case2 offset c cs hblank ih =>
    cases h.cons_cases with
    | inl h =>
      cases h.right
      exact .inl hblank
    | inr h => exact ih h hout
  | case3 offset c cs hblank m hscan stop ih =>
    have hplace := h.bounds
    have hhead := hout _ (List.mem_cons_self ..)
    rw [← Token.scan?_text_append_rest hscan] at h
    have htail := h.of_le m.text (Nat.le_of_not_lt fun hlt => hhead ⟨hplace.left, hlt⟩)
    cases ih htail (fun p hp => hout p (List.mem_cons_of_mem _ hp)) with
    | inl hx => exact .inl hx
    | inr hx =>
      obtain ⟨hx, hnone, s, hs, hstart⟩ := hx
      exact .inr ⟨hx, hnone, s, List.mem_cons_of_mem _ hs, hstart⟩
  | case4 offset c cs hblank hscan r start stop ih =>
    have hplace := h.bounds
    have hhead := hout _ (List.mem_cons_self ..)
    cases Nat.lt_or_ge place stop with
    | inl hlt =>
      -- the place is in front of the run, where only a lost character stands
      have hbefore : place < start := Nat.lt_of_not_le fun hle => hhead ⟨hle, hlt⟩
      rcases recover_cases c cs with ⟨hlost, _⟩ | ⟨rfl, hlost, _⟩
      . simp only [start, r, hlost, Text.width_nil] at hbefore
        omega
      . have hstart : start = offset + 1 := by simp only [start, r, hlost]; rfl
        cases h.cons_cases with
        | inl h =>
          cases h.right
          exact .inr ⟨rfl, hscan, ⟨start, stop⟩, List.mem_cons_self .., by rw [hstart, h.left]⟩
        | inr h =>
          have : offset + 1 ≤ place := h.bounds.left
          omega
    | inr hle =>
      rw [← recover_append (c :: cs)] at h
      have hstop : offset + Text.width ((recover (c :: cs)).lost ++ (recover (c :: cs)).run) = stop := by
        simp only [stop, start, r, Text.width_append, Nat.add_assoc]
      have htail := h.of_le _ (hstop ▸ hle)
      rw [hstop] at htail
      cases ih htail (fun p hp => hout p (List.mem_cons_of_mem _ hp)) with
      | inl hx => exact .inl hx
      | inr hx =>
        obtain ⟨hx, hnone, s, hs, hstart⟩ := hx
        exact .inr ⟨hx, hnone, s, List.mem_cons_of_mem _ hs, hstart⟩

theorem mem_labels_iff {pieces : List Piece} (position : Nat) {s : Span}
    : s ∈ (diagnostics position pieces).flatMap (fun d => d.labels.map (·.span)) ↔
        unrecognized s ∈ pieces := by
  induction pieces generalizing position with
  | nil => simp [diagnostics]
  | cons piece pieces ih =>
    cases piece with
    | lexeme l => simp [diagnostics, ← ih (position + 1)]
    | unrecognized t => simp [diagnostics, unrecognizedAt, Label.mark, ← ih position]

theorem spans_perm (pieces : List Piece) (position : Nat)
    : ((lexemes pieces).map (·.span) ++
        (diagnostics position pieces).flatMap (fun d => d.labels.map (·.span))).Perm
          (pieces.map span) := by
  induction pieces generalizing position with
  | nil => exact .nil
  | cons piece pieces ih =>
    cases piece with
    | lexeme l => exact (ih (position + 1)).cons l.span
    | unrecognized s => exact List.perm_middle.trans ((ih position).cons s)

end Piece

namespace Text

section

variable (text : String)

def tokenSpans : List Span :=
  (Piece.lexemes (Piece.ofText text)).map (·.span)

/--
The spans that the diagnostics of the lexer are labelled with.
-/
def unrecognizedSpans : List Span :=
  (Piece.diagnostics 0 (Piece.ofText text)).flatMap fun d => d.labels.map (·.span)

def spans : List Span :=
  tokenSpans text ++ unrecognizedSpans text

def lostPlaces : Set Nat :=
  Piece.lost (spans text) 0 text.toList

end

/--
Reading `text` leaves out nothing but blanks and the characters at the places `lost`, and reports
together what cannot be read. A run stops in front of a blank or a token or at the end. Only right
behind a lost character may it have a blank or a token as its start, or nothing at all.
-/
structure Recovers (text : String) (lost : Set Nat) : Prop where
  disjoint : (spans text).Pairwise fun s t => s.stop ≤ t.start ∨ t.stop ≤ s.start
  nonempty : ∀ s ∈ spans text,
    s.start < s.stop
      ∨ (s ∈ unrecognizedSpans text ∧ s = .empty (width text.toList)
          ∧ ∃ y ∈ lost, s.start = y + 1)
  outside : ∀ {place c rest}, Place 0 text.toList place (c :: rest) →
    (∀ s ∈ spans text, ¬s.Contains place) →
      isBlank c = true ∨ (place ∈ lost ∧ ∃ s ∈ unrecognizedSpans text, s.start = place + 1)
  inside : ∀ s ∈ unrecognizedSpans text,
    ∀ {place c rest}, Place 0 text.toList place (c :: rest) → s.Contains place →
      (isBlank c = false ∧ Token.scan? (c :: rest) = none)
        ∨ (place = s.start ∧ ∃ y ∈ lost, s.start = y + 1)
  stops : ∀ s ∈ unrecognizedSpans text,
    ∃ rest, Place 0 text.toList s.stop rest
      ∧ ∀ c ∈ rest.head?, isBlank c = true ∨ (Token.scan? rest).isSome = true

theorem spans_perm (text : String) : (spans text).Perm ((Piece.ofText text).map Piece.span) :=
  Piece.spans_perm ..

theorem mem_spans_iff {text : String} {s : Span} : s ∈ spans text ↔ ∃ p ∈ Piece.ofText text, p.span = s := by
  rw [(spans_perm text).mem_iff, List.mem_map]

theorem mem_unrecognizedSpans_iff {text : String} {s : Span}
    : s ∈ unrecognizedSpans text ↔ .unrecognized s ∈ Piece.ofText text :=
  Piece.mem_labels_iff 0

theorem lostPlaces_eq (text : String)
    : lostPlaces text = Piece.lost ((Piece.ofText text).map Piece.span) 0 text.toList := by
  ext y
  simp only [lostPlaces, Piece.lost, (spans_perm text).mem_iff]

theorem recovers_lostPlaces (text : String) : Recovers text (lostPlaces text) where
  disjoint := by
    rw [(spans_perm text).pairwise_iff (fun h => h.symm), List.pairwise_map]
    exact Piece.pairwise_split.imp .inl
  nonempty := by
    intro s hs
    obtain ⟨p, hp, rfl⟩ := mem_spans_iff.mp hs
    rw [lostPlaces_eq, mem_unrecognizedSpans_iff]
    cases (Piece.sound_of_mem_split p hp).nonempty with
    | inl hlt => exact .inl hlt
    | inr h =>
      obtain ⟨hrun, hempty, hlost⟩ := h
      rw [Nat.zero_add] at hempty
      exact .inr ⟨hrun ▸ hp, hempty, hlost⟩
  outside := by
    intro place c rest hplace hout
    have hpieces : ∀ p ∈ Piece.ofText text, ¬p.span.Contains place := by
      intro p hp
      exact hout _ (mem_spans_iff.mpr ⟨p, hp, rfl⟩)
    cases Piece.outside_of_split hplace hpieces with
    | inl hblank => exact .inl hblank
    | inr h =>
      obtain ⟨rfl, hscan, s, hs, hstart⟩ := h
      exact .inr ⟨⟨⟨rest, hplace, hscan⟩, hout⟩, s, mem_unrecognizedSpans_iff.mpr hs, hstart⟩
  inside := by
    intro s hs place c rest hplace hcontains
    rw [lostPlaces_eq]
    exact (Piece.sound_of_mem_split _ (mem_unrecognizedSpans_iff.mp hs)).inside rfl hplace hcontains
  stops := by
    intro s hs
    exact (Piece.sound_of_mem_split _ (mem_unrecognizedSpans_iff.mp hs)).stops rfl

theorem lostPlaces_eq_empty {text : String} (h : Recovers text ∅) : lostPlaces text = ∅ := by
  apply Set.eq_empty_of_forall_notMem
  rintro y ⟨⟨rest, hplace, _⟩, hout⟩
  cases h.outside hplace hout with
  | inl hblank => contradiction
  | inr hlost => exact hlost.left

theorem recovers_exact (text : String)
    : Recovers text (lostPlaces text) ∧ (Recovers text ∅ ↔ lostPlaces text = ∅) := by
  refine ⟨recovers_lostPlaces text, lostPlaces_eq_empty, ?_⟩
  intro hempty
  rw [← hempty]
  exact recovers_lostPlaces text

theorem not_recovers_YX1 : ¬Recovers "YX1" ∅ := by
  intro h
  have hspans : spans "YX1" = [⟨1, 3⟩] := by decide +kernel
  have hlost : 0 ∈ lostPlaces "YX1" := by
    refine ⟨⟨['X', '1'], ⟨[], rfl, rfl⟩, rfl⟩, ?_⟩
    simp [hspans, Span.Contains]
  rw [lostPlaces_eq_empty h] at hlost
  exact hlost

end Text

end LogicalScheme
