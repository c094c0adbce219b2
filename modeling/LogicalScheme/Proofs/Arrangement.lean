import LogicalScheme.Proofs.Pointing

/-!
This module contains the order of the diagnostics in an error. They are sorted by where they start, and that is
the order of their positions as well: a run that spells no token starts between the lexemes that its position
is between, and everything else starts with the lexeme at its position.
-/

namespace LogicalScheme

section Keys

variable {α : Type} {key key' : α → Option Nat} {xs ys : List α} {x y z : α} {m n : Nat}

/--
Every member of a list has a key, and no key is less than one in front of it.
-/
structure Ascending (key : α → Option Nat) (xs : List α) : Prop where
  keyed : ∀ x ∈ xs, (key x).isSome = true
  ordered : xs.Pairwise fun x y => ∀ m ∈ key x, ∀ n ∈ key y, m ≤ n

/--
The list `ys` has the members of `xs` by ascending keys. Members with the same key keep their order.
-/
structure Arranged (key : α → Option Nat) (xs ys : List α) : Prop extends Ascending key ys where
  perm : ys.Perm xs
  stable : ∀ n, ys.filter (key · == some n) = xs.filter (key · == some n)

namespace Ascending

theorem tail (h : Ascending key (x :: xs)) : Ascending key xs where
  keyed := fun z hz => h.keyed z (List.mem_cons_of_mem x hz)
  ordered := h.ordered.tail

theorem exists_key (h : Ascending key xs) (hx : x ∈ xs) : ∃ n, key x = some n :=
  Option.isSome_iff_exists.mp (h.keyed x hx)

theorem head_le (h : Ascending key (x :: xs)) (hz : z ∈ x :: xs) (hm : key x = some m)
    (hn : key z = some n) : m ≤ n := by
  cases List.mem_cons.mp hz with
  | inl heq =>
    rw [heq, hm] at hn
    cases hn
    exact Nat.le_refl m
  | inr hz => exact (List.pairwise_cons.mp h.ordered).left z hz m hm n hn

theorem filter (h : Ascending key xs) (p : α → Bool) : Ascending key (xs.filter p) where
  keyed := fun x hx => h.keyed x (List.mem_filter.mp hx).left
  ordered := h.ordered.filter p

end Ascending

theorem mem_iff_of_filter_eq (h : ∀ n, xs.filter (key · == some n) = ys.filter (key · == some n))
    (hz : key z = some n) : z ∈ xs ↔ z ∈ ys := by
  have hfilter : z ∈ xs.filter (key · == some n) ↔ z ∈ ys.filter (key · == some n) := by rw [h n]
  simpa [List.mem_filter, hz] using hfilter

theorem Ascending.eq_of_filter_eq (hxs : Ascending key xs) (hys : Ascending key ys)
    (h : ∀ n, xs.filter (key · == some n) = ys.filter (key · == some n)) : xs = ys := by
  induction xs generalizing ys with
  | nil =>
    apply Eq.symm
    apply List.eq_nil_iff_forall_not_mem.mpr
    intro y hy
    obtain ⟨n, hn⟩ := hys.exists_key hy
    have hmem := (mem_iff_of_filter_eq h hn).mpr hy
    contradiction
  | cons x xs ih =>
    obtain ⟨m, hm⟩ := hxs.exists_key List.mem_cons_self
    have hx := (mem_iff_of_filter_eq h hm).mp List.mem_cons_self
    cases ys with
    | nil => contradiction
    | cons y ys =>
      obtain ⟨n, hn⟩ := hys.exists_key List.mem_cons_self
      have hy := (mem_iff_of_filter_eq h hn).mpr List.mem_cons_self
      -- each head is in the other list, so both have the least key and are the first with it
      cases Nat.le_antisymm (hxs.head_le hy hm hn) (hys.head_le hx hn hm)
      have hhead := h m
      rw [List.filter_cons_of_pos (by simp [hm]), List.filter_cons_of_pos (by simp [hn])] at hhead
      obtain ⟨rfl, hsame⟩ := List.cons.inj hhead
      have htail : ∀ k, xs.filter (key · == some k) = ys.filter (key · == some k) := by
        intro k
        by_cases hk : m = k
        . rw [← hk]
          exact hsame
        . have hboth := h k
          simpa [List.filter_cons, hm, hk] using hboth
      rw [ih hxs.tail hys.tail htail]

theorem Arranged.map_key (h : Arranged key xs ys) {ns : List Nat} (hperm : (xs.map key).Perm (ns.map some))
    (hns : ns.Pairwise (· ≤ ·)) : ys.map key = ns.map some := by
  have hys : (ys.map key).Pairwise fun x y => ∀ m ∈ x, ∀ n ∈ y, m ≤ n := List.pairwise_map.mpr h.ordered
  have hsorted : (ns.map some).Pairwise fun x y => ∀ m ∈ x, ∀ n ∈ y, m ≤ n := by
    rw [List.pairwise_map]
    exact hns.imp (by simp)
  refine List.Perm.eq_of_pairwise ?_ hys hsorted ((h.perm.map key).trans hperm)
  intro x y hx hy hxy hyx
  obtain ⟨z, hz, rfl⟩ := List.mem_map.mp hx
  obtain ⟨n, hn, rfl⟩ := List.mem_map.mp hy
  obtain ⟨m, hm⟩ := h.toAscending.exists_key hz
  rw [hm] at hxy hyx ⊢
  exact congrArg some (Nat.le_antisymm (hxy m rfl n rfl) (hyx n rfl m rfl))

theorem Arranged.of_agree (h : Arranged key xs ys) (hkeyed : ∀ x ∈ xs, (key' x).isSome = true)
    (hlt : ∀ x ∈ xs, ∀ y ∈ xs, ∀ m ∈ key' x, ∀ n ∈ key' y, m < n → ∀ i ∈ key x, ∀ j ∈ key y, i < j)
    (hsame : xs.Pairwise fun x y => key' x = key' y → ∀ i ∈ key x, ∀ j ∈ key y, i ≤ j)
    : Arranged key' xs ys where
  keyed := fun y hy => hkeyed y (h.perm.mem_iff.mp hy)
  ordered := by
    apply h.ordered.imp_of_mem
    intro x y hx hy hle m hm n hn
    obtain ⟨i, hi⟩ := h.exists_key hx
    obtain ⟨j, hj⟩ := h.exists_key hy
    apply Nat.le_of_not_lt
    intro hnm
    have hji := hlt y (h.perm.mem_iff.mp hy) x (h.perm.mem_iff.mp hx) n hn m hm hnm j hj i hi
    exact Nat.not_lt_of_le (hle i hi j hj) hji
  perm := h.perm
  stable := by
    intro n
    have hys : Ascending key (ys.filter (key' · == some n)) := h.toAscending.filter _
    have hxs : Ascending key (xs.filter (key' · == some n)) := by
      constructor
      . intro x hx
        exact h.keyed x (h.perm.mem_iff.mpr (List.mem_filter.mp hx).left)
      . apply (hsame.filter _).imp_of_mem
        intro x y hx hy hle
        have hx' := (List.mem_filter.mp hx).right
        have hy' := (List.mem_filter.mp hy).right
        rw [beq_iff_eq] at hx' hy'
        exact hle (hx'.trans hy'.symm)
    apply hys.eq_of_filter_eq hxs
    intro i
    rw [List.filter_filter, List.filter_filter]
    simp only [Bool.and_comm (key _ == some i)]
    rw [← List.filter_filter, ← List.filter_filter, h.stable i]

end Keys

namespace Diagnostic

def start? (x : Diagnostic) : Option Nat :=
  x.primarySpan?.map (·.start)

variable {x y : Diagnostic}

theorem startsBefore_iff (hx : x.start?.isSome = true)
    : x.startsBefore y = true ↔ ∀ m ∈ x.start?, ∀ n ∈ y.start?, m ≤ n := by
  unfold start? at *
  unfold startsBefore
  cases hx' : x.primarySpan? with
  | none => simp [hx'] at hx
  | some s => cases hy' : y.primarySpan? <;> simp

theorem startsBefore_trans (x y z : Diagnostic)
    : x.startsBefore y = true → y.startsBefore z = true → x.startsBefore z = true := by
  unfold startsBefore
  cases x.primarySpan? <;> cases y.primarySpan? <;> cases z.primarySpan? <;> simp
  exact Nat.le_trans

theorem startsBefore_total (x y : Diagnostic) : (x.startsBefore y || y.startsBefore x) = true := by
  unfold startsBefore
  cases x.primarySpan? <;> cases y.primarySpan? <;> simp [Nat.le_total]

end Diagnostic

namespace Malformed

open Diagnostic (start? startsBefore startsBefore_iff startsBefore_trans startsBefore_total)

variable {ds : List Diagnostic}

theorem filter_mergeSort (ds : List Diagnostic) (n : Nat)
    : (ds.mergeSort startsBefore).filter (·.start? == some n) = ds.filter (·.start? == some n) := by
  have hsorted : (ds.filter (·.start? == some n)).Pairwise (fun x y => x.startsBefore y = true) := by
    apply List.pairwise_of_forall_mem_list
    intro x hx y hy
    have hx : x.start? = some n := beq_iff_eq.mp (List.mem_filter.mp hx).right
    have hy : y.start? = some n := beq_iff_eq.mp (List.mem_filter.mp hy).right
    rw [startsBefore_iff (by simp [hx]), hx, hy]
    simp
  have hsub : (ds.filter (·.start? == some n)).Sublist (ds.mergeSort startsBefore) :=
    List.sublist_mergeSort startsBefore_trans startsBefore_total hsorted List.filter_sublist
  have hfilter := hsub.filter (·.start? == some n)
  simp only [List.filter_filter, Bool.and_self] at hfilter
  apply Eq.symm
  apply hfilter.eq_of_length
  exact ((List.mergeSort_perm ds startsBefore).filter _).length_eq.symm

theorem arranged_ofDiagnostics (h : ∀ x ∈ ds, x.start?.isSome = true)
    : Arranged start? ds (ofDiagnostics ds).diagnostics where
  keyed := fun x hx => h x (List.mem_mergeSort.mp hx)
  ordered := by
    apply (List.pairwise_mergeSort startsBefore_trans startsBefore_total ds).imp_of_mem
    intro x y hx _ hxy
    exact (startsBefore_iff (h x (List.mem_mergeSort.mp hx))).mp hxy
  perm := List.mergeSort_perm ds startsBefore
  stable := filter_mergeSort ds

/--
An error has the diagnostics `ds` in the order in which they start, which is the order of their positions as well.
-/
structure Orders (m : Malformed) (ds : List Diagnostic) : Prop where
  byStart : Arranged start? ds m.diagnostics
  byPosition : Arranged (·.position) ds m.diagnostics

end Malformed

namespace Draft

variable {d : Draft} {x y : Diagnostic} {p q s t : Nat}

/--
A diagnostic at position `p` starts at byte `s`. That is behind the starts of all lexemes in front of `p` and
not behind the start of the lexeme at `p`, where the end of the text stands for the lexeme behind the last one.
-/
structure Places (d : Draft) (x : Diagnostic) (p s : Nat) : Prop where
  position : x.position = some p
  start : x.start? = some s
  upper : s ≤ (d.span p).start
  lower : ∀ q, q < p → (d.span q).start < s

theorem Places.lt (hx : d.Places x p s) (hy : d.Places y q t) (h : p < q) : s < t :=
  Nat.lt_of_le_of_lt hx.upper (hy.lower p h)

theorem orders_ofDiagnostics {ds : List Diagnostic} (hplaces : ∀ x ∈ ds, ∃ p s, d.Places x p s)
    (hsame : ds.Pairwise fun x y => x.position = y.position → ∀ i ∈ x.start?, ∀ j ∈ y.start?, i ≤ j)
    : (Malformed.ofDiagnostics ds).Orders ds := by
  have hstart : Arranged Diagnostic.start? ds (Malformed.ofDiagnostics ds).diagnostics := by
    apply Malformed.arranged_ofDiagnostics
    intro x hx
    obtain ⟨p, s, h⟩ := hplaces x hx
    rw [h.start]
    rfl
  refine ⟨hstart, hstart.of_agree ?_ ?_ hsame⟩
  . intro x hx
    obtain ⟨p, s, h⟩ := hplaces x hx
    rw [h.position]
    rfl
  . intro x hx y hy m hm n hn hlt i hi j hj
    obtain ⟨p, s, hx⟩ := hplaces x hx
    obtain ⟨q, t, hy⟩ := hplaces y hy
    cases hx.position.symm.trans hm
    cases hy.position.symm.trans hn
    cases hx.start.symm.trans hi
    cases hy.start.symm.trans hj
    exact hx.lt hy hlt

def Begins (d : Draft) (x : Diagnostic) : Prop :=
  ∃ p, p ≤ d.size ∧ x.position = some p ∧ x.start? = some (d.span p).start

theorem pairwise_of_begins {ds : List Diagnostic} (h : ∀ x ∈ ds, d.Begins x)
    : ds.Pairwise fun x y => x.position = y.position → ∀ i ∈ x.start?, ∀ j ∈ y.start?, i ≤ j := by
  apply List.pairwise_of_forall_mem_list
  intro x hx y hy hposition i hi j hj
  obtain ⟨p, _, hp, hx⟩ := h x hx
  obtain ⟨q, _, hq, hy⟩ := h y hy
  rw [hp, hq] at hposition
  cases hposition
  cases hx.symm.trans hi
  cases hy.symm.trans hj
  exact Nat.le_refl _

end Draft

namespace Piece

variable {pieces : List Piece} {x : Diagnostic} {position : Nat}

theorem exists_of_mem_diagnostics (h : x ∈ diagnostics position pieces)
    : ∃ before s after, pieces = before ++ unrecognized s :: after ∧
        x = unrecognizedAt (position + (lexemes before).length) s := by
  induction pieces generalizing position with
  | nil => contradiction
  | cons piece pieces ih =>
    cases piece with
    | lexeme l =>
      obtain ⟨before, s, after, rfl, rfl⟩ := ih h
      refine ⟨lexeme l :: before, s, after, rfl, ?_⟩
      simp only [lexemes, List.filterMap_cons, List.length_cons]
      rw [Nat.add_assoc, Nat.add_comm 1]
    | unrecognized s =>
      cases List.mem_cons.mp h with
      | inl heq => exact ⟨[], s, pieces, rfl, heq⟩
      | inr hmem =>
        obtain ⟨before, t, after, rfl, rfl⟩ := ih hmem
        exact ⟨unrecognized s :: before, t, after, rfl, rfl⟩

theorem pairwise_diagnostics (hpieces : pieces.Pairwise fun p q => p.span.stop ≤ q.span.start)
    (hspans : ∀ p ∈ pieces, p.span.start ≤ p.span.stop)
    : (diagnostics position pieces).Pairwise fun x y => ∀ i ∈ x.start?, ∀ j ∈ y.start?, i ≤ j := by
  induction pieces generalizing position with
  | nil => exact .nil
  | cons piece pieces ih =>
    rw [List.pairwise_cons] at hpieces
    rw [List.forall_mem_cons] at hspans
    cases piece with
    | lexeme l => exact ih hpieces.right hspans.right
    | unrecognized s =>
      refine .cons ?_ (ih hpieces.right hspans.right)
      intro y hy i hi j hj
      obtain ⟨before, t, after, rfl, rfl⟩ := exists_of_mem_diagnostics hy
      cases hi
      cases hj
      exact Nat.le_trans hspans.left (hpieces.left (unrecognized t) (by simp))

end Piece

namespace Draft

variable {text : String} {p q : Nat} {l : Lexeme} {x : Diagnostic}

theorem span_of_getElem? {d : Draft} (h : d.lexemes[p]? = some l) : d.span p = l.span := by
  unfold span
  rw [h]
  rfl

theorem span_start_of_size_le {d : Draft} (h : d.size ≤ p) : (d.span p).start = d.source.utf8ByteSize := by
  unfold span
  rw [Array.getElem?_eq_none h]
  rfl

theorem source_ofText (text : String) : (ofText text).source = Text.normalize text := rfl

theorem lexemes_ofText_getElem? (text : String) (p : Nat)
    : (ofText text).lexemes[p]? = (Piece.lexemes (Piece.ofText (Text.normalize text)))[p]? := by
  simp [ofText]

theorem span_start_lt (hlt : q < p) (hp : p ≤ (ofText text).size)
    : ((ofText text).span q).start < ((ofText text).span p).start := by
  have hsize : (ofText text).size = (Piece.lexemes (Piece.ofText (Text.normalize text))).length := by
    simp [ofText, size]
  have hq : q < (Piece.lexemes (Piece.ofText (Text.normalize text))).length := by omega
  have hl := (lexemes_ofText_getElem? text q).trans (List.getElem?_eq_getElem hq)
  have hmem := Piece.mem_of_mem_lexemes (List.getElem_mem hq)
  have hnonempty := Piece.nonempty_of_lexeme hmem
  rw [span_of_getElem? hl]
  cases Nat.lt_or_eq_of_le hp with
  | inl hp =>
    rw [hsize] at hp
    rw [span_of_getElem? ((lexemes_ofText_getElem? text p).trans (List.getElem?_eq_getElem hp))]
    have hordered := List.pairwise_iff_getElem.mp (Piece.pairwise_lexemes (Text.normalize text)) q p hq hp hlt
    exact Nat.lt_of_lt_of_le hnonempty hordered
  | inr hp =>
    rw [span_start_of_size_le (Nat.le_of_eq hp.symm), source_ofText]
    exact Nat.lt_of_lt_of_le hnonempty (Piece.liesIn_of_mem_ofText hmem).inside

theorem begins_of_pointsInto (h : x.PointsInto (Text.normalize text) (Parsed.ofText text).lexemes)
    (hcode : x.code ≠ some .unrecognizedToken) : (ofText text).Begins x := by
  obtain ⟨p, s, hposition, hprimary, hspan⟩ := h.primary
  have hstart : x.start? = some s.start := by
    unfold Diagnostic.start?
    rw [hprimary]
    rfl
  rw [Parsed.ofText_eq] at hspan
  refine ⟨p, ?_⟩
  rcases hspan hcode with ⟨l, hl, rfl⟩ | ⟨hp, rfl⟩
  . rw [Array.getElem?_toList] at hl
    refine ⟨Nat.le_of_lt (Array.getElem?_eq_some_iff.mp hl).choose, hposition, ?_⟩
    rw [hstart, span_of_getElem? hl]
  . rw [Array.length_toList] at hp
    refine ⟨Nat.le_of_eq hp, hposition, ?_⟩
    rw [hstart, span_start_of_size_le (Nat.le_of_eq hp.symm), source_ofText, Span.empty]

theorem Begins.places (h : (ofText text).Begins x) : ∃ p s, (ofText text).Places x p s := by
  obtain ⟨p, hp, hposition, hstart⟩ := h
  exact ⟨p, _, hposition, hstart, Nat.le_refl _, fun q hq => span_start_lt hq hp⟩

theorem places_unrecognized (h : x ∈ Piece.diagnostics 0 (Piece.ofText (Text.normalize text)))
    : ∃ p s, (ofText text).Places x p s := by
  obtain ⟨before, s, after, hpieces, rfl⟩ := Piece.exists_of_mem_diagnostics h
  have hlies : s.LiesIn (Text.normalize text) :=
    Piece.liesIn_of_mem_ofText (p := .unrecognized s) (by simp [hpieces])
  have hordered : (Piece.ofText (Text.normalize text)).Pairwise fun p q => p.span.stop ≤ q.span.start :=
    Piece.pairwise_split
  have hlexemes (p : Nat)
      : (ofText text).lexemes[p]? = (Piece.lexemes before ++ Piece.lexemes after)[p]? := by
    rw [lexemes_ofText_getElem?, hpieces]
    simp [Piece.lexemes]
  rw [hpieces, List.pairwise_append, List.pairwise_cons] at hordered
  obtain ⟨_, ⟨hafter, _⟩, hbefore⟩ := hordered
  refine ⟨(Piece.lexemes before).length, s.start, congrArg some (Nat.zero_add _), rfl, ?_, ?_⟩
  . unfold span
    rw [hlexemes, List.getElem?_append_right (Nat.le_refl _), Nat.sub_self]
    cases hl : (Piece.lexemes after)[0]? with
    | none =>
      simp only [Option.map_none, Option.getD_none, source_ofText, Span.empty]
      exact Nat.le_trans hlies.ordered hlies.inside
    | some l =>
      have hmem := Piece.mem_of_mem_lexemes (List.mem_of_getElem? hl)
      exact Nat.le_trans hlies.ordered (hafter _ hmem)
  . intro q hq
    have hl := (hlexemes q).trans ((List.getElem?_append_left hq).trans (List.getElem?_eq_getElem hq))
    have hmem := Piece.mem_of_mem_lexemes (List.getElem_mem hq)
    have hpiece : .lexeme (Piece.lexemes before)[q] ∈ Piece.ofText (Text.normalize text) := by
      rw [hpieces]
      exact List.mem_append_left _ hmem
    rw [span_of_getElem? hl]
    exact Nat.lt_of_lt_of_le (Piece.nonempty_of_lexeme hpiece) (hbefore _ hmem _ List.mem_cons_self)

end Draft

namespace Parsed

variable {text : String} {x : Diagnostic}

theorem begins_of_isStructural (hx : x ∈ (ofText text).diagnostics) (h : x.IsStructural)
    : (Draft.ofText text).Begins x := by
  apply Draft.begins_of_pointsInto (pointsInto_ofText hx)
  obtain ⟨_, code, hcode, hstructural⟩ := h
  rw [hcode]
  intro heq
  cases heq
  contradiction

theorem orders_ofText (text : String)
    : (Malformed.ofDiagnostics (ofText text).diagnostics).Orders (ofText text).diagnostics := by
  have hbegins : ∀ x ∈ (Draft.ofText text).reports (Draft.ofText text).size ++ (Draft.ofText text).problems,
      (Draft.ofText text).Begins x := by
    intro x hx
    apply begins_of_isStructural
    . rw [ofText_eq, List.append_assoc]
      exact List.mem_append_right _ hx
    . cases List.mem_append.mp hx with
      | inl hx => exact Draft.reports_isStructural _ _ x hx
      | inr hx => exact Draft.problems_isStructural _ x hx
  rw [ofText_eq, List.append_assoc]
  apply Draft.orders_ofDiagnostics (d := Draft.ofText text)
  . intro x hx
    cases List.mem_append.mp hx with
    | inl hx => exact Draft.places_unrecognized hx
    | inr hx => exact (hbegins x hx).places
  . rw [List.pairwise_append]
    refine ⟨?_, ?_, ?_⟩
    . have hspans : ∀ p ∈ Piece.ofText (Text.normalize text), p.span.start ≤ p.span.stop :=
        fun p hp => (Piece.liesIn_of_mem_ofText hp).ordered
      apply (Piece.pairwise_diagnostics Piece.pairwise_split hspans).imp
      intro x y hle _
      exact hle
    . exact Draft.pairwise_of_begins hbegins
    . -- runs are reported first and start no later than the lexeme at their position
      intro x hx y hy hposition i hi j hj
      obtain ⟨p, s, hplaces⟩ := Draft.places_unrecognized hx
      obtain ⟨q, _, hq, hstart⟩ := hbegins y hy
      rw [hplaces.position, hq] at hposition
      cases hposition
      cases hplaces.start.symm.trans hi
      cases hstart.symm.trans hj
      exact hplaces.upper

end Parsed

namespace Scheme

variable {text : String} {settings : Settings} {s : Scheme} {f : Failure}

def lenient (settings : Settings) : Settings :=
  { settings with warningsAsErrors := false }

theorem parse_eq_error_iff
    : parse settings text = .error f ↔
        (∃ m, LogicalScheme.parse text = .error m ∧ f = .malformed m (Text.normalize text)) ∨
        settings.warningsAsErrors = true ∧
          ∃ s, parse (lenient settings) text = .ok s ∧ s.warnings ≠ [] ∧
            f = .malformed (.ofDiagnostics (s.warnings.map (·.promote))) (Text.normalize text) := by
  unfold parse lenient
  cases LogicalScheme.parse text with
  | error m =>
    constructor
    . intro h
      cases h
      exact .inl ⟨m, rfl, rfl⟩
    . rintro (⟨m', hm, rfl⟩ | ⟨_, s, hs, _⟩)
      . cases hm
        rfl
      . cases hs
  | ok p =>
    simp only [Bool.false_and, Bool.false_eq_true, ↓reduceIte, Bool.and_eq_true, Bool.not_eq_true',
      List.isEmpty_eq_false_iff]
    constructor
    . intro h
      split at h
      . next hstrict =>
        cases h
        exact .inr ⟨hstrict.left, _, rfl, hstrict.right, rfl⟩
      . cases h
    . rintro (⟨m, hm, _⟩ | ⟨hstrict, s, hs, hwarnings, rfl⟩)
      . cases hm
      . cases hs
        rw [if_pos ⟨hstrict, hwarnings⟩]

theorem orders_warnings (hparse : parse (lenient settings) text = .ok s)
    : (Malformed.ofDiagnostics (s.warnings.map (·.promote))).Orders (s.warnings.map (·.promote)) := by
  rcases parse_cases (lenient settings) text with ⟨m, _, hm⟩ | ⟨p, t, hp, hautomaton, hlexemes, hwarnings, ht⟩
  . cases hm.symm.trans hparse
  . have heq : t = s := by
      cases ht with
      | inl ht =>
        cases ht.symm.trans hparse
        rfl
      | inr ht => cases ht.symm.trans hparse
    subst heq
    have hbegins : ∀ x ∈ t.warnings.map (·.promote), (Draft.ofText text).Begins x := by
      intro x hx
      obtain ⟨w, hw, rfl⟩ := List.mem_map.mp hx
      rw [hwarnings] at hw
      have hpoints := pointsInto_unreachableWarning hp hautomaton hlexemes w hw
      obtain ⟨r, _, rfl⟩ := List.mem_map.mp hw
      exact Draft.begins_of_pointsInto hpoints.promote (by simp [Diagnostic.promote, unreachableWarning])
    apply Draft.orders_ofDiagnostics (d := Draft.ofText text)
    . exact fun x hx => (hbegins x hx).places
    . exact Draft.pairwise_of_begins hbegins

/--
The diagnostics of a rejected text are those that were collected for it, in the order of their spans, which
is the order of their positions.
-/
theorem errors_ordered (text : String) (settings : Settings)
    : (∀ m, LogicalScheme.parse text = .error m → m.Orders (Parsed.ofText text).diagnostics) ∧
        ∀ f, parse settings text = .error f → ∃ m, f = .malformed m (Text.normalize text) ∧
          ((LogicalScheme.parse text = .error m ∧ m.Orders (Parsed.ofText text).diagnostics) ∨
            ∃ s, parse (lenient settings) text = .ok s ∧ m.Orders (s.warnings.map (·.promote))) := by
  have hparse : ∀ m, LogicalScheme.parse text = .error m → m.Orders (Parsed.ofText text).diagnostics := by
    intro m hm
    rw [eq_ofDiagnostics_of_parse hm]
    exact Parsed.orders_ofText text
  refine ⟨hparse, ?_⟩
  intro f hf
  rcases parse_eq_error_iff.mp hf with ⟨m, hm, rfl⟩ | ⟨_, s, hs, _, rfl⟩
  . exact ⟨m, rfl, .inl ⟨hm, hparse m hm⟩⟩
  . exact ⟨_, rfl, .inr ⟨s, hs, orders_warnings hs⟩⟩

def scatteredText : String :=
  "Y1 ж X2 Yк Y Yк"

theorem parse_scatteredText
    : LogicalScheme.parse scatteredText =
        .error (.ofDiagnostics (Parsed.ofText scatteredText).diagnostics) := by
  have herrors : (Parsed.ofText scatteredText).diagnostics.any (·.isError) = true := by
    rw [Parsed.ofText_eq]
    decide +kernel
  unfold LogicalScheme.parse Parsed.accept
  rw [if_pos herrors]

theorem positions_scatteredText
    : ∃ m, LogicalScheme.parse scatteredText = .error m ∧
        m.Orders (Parsed.ofText scatteredText).diagnostics ∧
        (Parsed.ofText scatteredText).diagnostics.map (·.position) = [1, 3, 0, 2, 2, 3, 1].map some ∧
        m.diagnostics.map (·.position) = [0, 1, 1, 2, 2, 3, 3].map some := by
  have horders := (errors_ordered scatteredText {}).left _ parse_scatteredText
  have hpositions : (Parsed.ofText scatteredText).diagnostics.map (·.position) =
      [1, 3, 0, 2, 2, 3, 1].map some := by
    rw [Parsed.ofText_eq]
    decide +kernel
  refine ⟨_, parse_scatteredText, horders, hpositions, horders.byPosition.map_key ?_ ?_⟩
  . rw [hpositions]
    decide
  . decide

end Scheme

end LogicalScheme
