import LogicalScheme.Prompt
import LogicalScheme.Proofs.Spelling

/-!
This module contains dialogues, in which a prompt is asked for one condition after the other. Every line of the
input is read once and in order, the lines that are answers or no text are the results of the calls in order,
and the output has one question for each reading.
-/

namespace LogicalScheme

namespace Text

theorem exists_trim (cs : List Char)
    : ∃ before after, cs = before ++ trim cs ++ after ∧ ∀ c ∈ before ++ after, isBlank c = true := by
  refine ⟨cs.takeWhile isBlank, ((cs.dropWhile isBlank).reverse.takeWhile isBlank).reverse, ?_, ?_⟩
  . rw [List.append_assoc, trim, ← List.reverse_append, List.takeWhile_append_dropWhile, List.reverse_reverse,
      List.takeWhile_append_dropWhile]
  . intro c hc
    cases List.mem_append.mp hc with
    | inl hc => exact List.mem_takeWhile_imp hc
    | inr hc => exact List.mem_takeWhile_imp (List.mem_reverse.mp hc)

theorem trim_append {before word after : List Char} (hblank : ∀ c ∈ before ++ after, isBlank c = true)
    (hne : word ≠ []) (hword : ∀ c ∈ word, isBlank c = false) : trim (before ++ word ++ after) = word := by
  have hbefore : (before ++ (word ++ after)).dropWhile isBlank = word ++ after := by
    apply dropWhile_run
    . exact fun c hc => hblank c (List.mem_append_left after hc)
    . intro c hc
      rw [List.head?_append, Option.or_of_isSome (List.isSome_head?.mpr hne)] at hc
      exact hword c (List.mem_of_head? hc)
  have hafter : (after.reverse ++ word.reverse).dropWhile isBlank = word.reverse := by
    apply dropWhile_run
    . exact fun c hc => hblank c (List.mem_append_right before (List.mem_reverse.mp hc))
    . intro c hc
      exact hword c (List.mem_reverse.mp (List.mem_of_head? hc))
  rw [trim, List.append_assoc, hbefore, List.reverse_append, hafter, List.reverse_reverse]

theorem toLower_eq_of_isBlank {c : Char} (h : isBlank c = true) : c.toLower = c := by
  unfold Char.toLower
  split
  . next hc =>
    simp only [isBlank, Char.toNat, Bool.or_eq_true, Bool.and_eq_true, decide_eq_true_eq, beq_iff_eq] at h
    have hlow : 65 ≤ c.val.toNat := UInt32.le_iff_toNat_le.mp hc.left
    have hhigh : c.val.toNat ≤ 90 := UInt32.le_iff_toNat_le.mp hc.right
    omega
  . rfl

end Text

namespace Prompt

/--
The bytes are divided into lines behind each line feed. What is left behind the last one is a line too, if it
is not empty.
-/
structure Divides (bytes : List UInt8) (lines : List (List UInt8)) : Prop where
  flatten : lines.flatten = bytes
  ne_nil : ∀ line ∈ lines, line ≠ []
  whole : ∀ line ∈ lines, 0x0A ∉ line.dropLast
  ended : ∀ line ∈ lines.dropLast, line.getLast? = some 0x0A

namespace Divides

variable {bytes : List UInt8} {lines : List (List UInt8)}

theorem cons_lineFeed (h : Divides bytes lines) : Divides (0x0A :: bytes) ([0x0A] :: lines) where
  flatten := congrArg _ h.flatten
  ne_nil := List.forall_mem_cons.mpr ⟨List.cons_ne_nil _ _, h.ne_nil⟩
  whole := List.forall_mem_cons.mpr ⟨List.not_mem_nil, h.whole⟩
  ended := by
    cases lines with
    | nil => simp
    | cons line lines => exact List.forall_mem_cons.mpr ⟨rfl, h.ended⟩

theorem cons_of_ne {b : UInt8} {line : List UInt8} (h : Divides bytes (line :: lines)) (hb : b ≠ 0x0A)
    : Divides (b :: bytes) ((b :: line) :: lines) := by
  have hne := h.ne_nil line List.mem_cons_self
  constructor
  . exact congrArg _ h.flatten
  . exact List.forall_mem_cons.mpr ⟨List.cons_ne_nil _ _, fun l hl => h.ne_nil l (List.mem_cons_of_mem _ hl)⟩
  . refine List.forall_mem_cons.mpr ⟨?_, fun l hl => h.whole l (List.mem_cons_of_mem _ hl)⟩
    rw [List.dropLast_cons_of_ne_nil hne, List.mem_cons, not_or]
    exact ⟨hb.symm, h.whole line List.mem_cons_self⟩
  . have hended := h.ended
    cases lines with
    | nil => simp
    | cons l lines =>
      rw [List.dropLast_cons_cons, List.forall_mem_cons] at hended ⊢
      rw [List.getLast?_cons_of_ne_nil hne]
      exact hended

theorem consByte (h : Divides bytes lines) (b : UInt8) : Divides (b :: bytes) (consByte b lines) := by
  unfold Prompt.consByte
  split
  . next hb =>
    subst hb
    exact h.cons_lineFeed
  . next hb =>
    split
    . next =>
      rw [← h.flatten]
      exact ⟨rfl, by simp, by simp, by simp⟩
    . exact h.cons_of_ne hb

end Divides

theorem divides_splitLines (bytes : List UInt8) : Divides bytes (splitLines bytes) := by
  induction bytes with
  | nil => exact ⟨rfl, by simp [splitLines], by simp [splitLines], by simp [splitLines]⟩
  | cons b bytes ih => exact ih.consByte b

theorem splitLines_append {line rest : List UInt8} (hne : line ≠ []) (hwhole : 0x0A ∉ line.dropLast)
    (hended : line.getLast? = some 0x0A ∨ rest = []) : splitLines (line ++ rest) = line :: splitLines rest := by
  induction line with
  | nil => contradiction
  | cons b line ih =>
    cases line with
    | nil =>
      change consByte b (splitLines rest) = [b] :: splitLines rest
      unfold consByte
      split
      . rfl
      . next hb =>
        rcases hended with hended | rfl
        . exact absurd (Option.some.inj hended) hb
        . rfl
    | cons c line =>
      rw [List.dropLast_cons_cons, List.mem_cons, not_or] at hwhole
      have hsplit := ih (List.cons_ne_nil c line) hwhole.right hended
      have hb : b ≠ 0x0A := Ne.symm hwhole.left
      change consByte b (splitLines (c :: line ++ rest)) = _
      rw [hsplit, consByte, if_neg hb]

theorem divides_iff {bytes : List UInt8} {lines : List (List UInt8)}
    : Divides bytes lines ↔ lines = splitLines bytes := by
  constructor
  . intro h
    obtain ⟨hflatten, hne, hwhole, hended⟩ := h
    rw [← hflatten]
    clear hflatten
    induction lines with
    | nil => rfl
    | cons line lines ih =>
      rw [List.forall_mem_cons] at hne hwhole
      have hlast : line.getLast? = some 0x0A ∨ lines.flatten = [] := by
        cases lines with
        | nil => exact .inr rfl
        | cons l lines => exact .inl (hended line List.mem_cons_self)
      have htail : ∀ l ∈ lines.dropLast, l.getLast? = some 0x0A := by
        cases lines with
        | nil => simp
        | cons l lines => exact fun x hx => hended x (List.mem_cons_of_mem line hx)
      rw [List.flatten_cons, splitLines_append hne.left hwhole.left hlast, ← ih hne.right hwhole.right htail]
  . rintro rfl
    exact divides_splitLines bytes

def wordsFor : Bool → List String
  | true => ["1", "y", "yes", "t", "true"]
  | false => ["0", "n", "no", "f", "false"]

/--
A line stands for a value if it has a word for it, in letters of any case, and nothing but blanks around it.
-/
def Means (line : List UInt8) (value : Bool) : Prop :=
  ∃ text before word after, Text.decode? line = some text ∧ text.toList = before ++ word ++ after ∧
    (∀ c ∈ before ++ after, Text.isBlank c = true) ∧ String.ofList (word.map Char.toLower) ∈ wordsFor value

/--
What a call makes of a line: an answer, an error, or nothing, so that the line is asked for again.
-/
def reply? (line : List UInt8) : Option (Except InputError Bool) :=
  match Text.decode? line with
  | none => some (.error .notText)
  | some text => (answer? text).map .ok

theorem answer?_eq_some_iff {text : String} {value : Bool}
    : answer? text = some value ↔
        String.ofList ((Text.trim text.toList).map Char.toLower) ∈ wordsFor value := by
  unfold answer?
  generalize String.ofList ((Text.trim text.toList).map Char.toLower) = word
  split
  all_goals cases value <;> simp_all [wordsFor]

theorem not_isBlank_of_mem_wordsFor {value : Bool} {word : String} (h : word ∈ wordsFor value)
    : word.toList ≠ [] ∧ ∀ c ∈ word.toList, Text.isBlank c = false := by
  have hall : ∀ value, (wordsFor value).all (fun w => !w.toList.isEmpty && w.toList.all (!Text.isBlank ·)) = true := by
    decide +kernel
  have hword := List.all_eq_true.mp (hall value) word h
  rw [Bool.and_eq_true, List.all_eq_true] at hword
  refine ⟨?_, fun c hc => by simpa using hword.right c hc⟩
  intro hnil
  simp [hnil] at hword

theorem answer?_eq_some_iff_exists {text : String} {value : Bool}
    : answer? text = some value ↔
        ∃ before word after, text.toList = before ++ word ++ after ∧
          (∀ c ∈ before ++ after, Text.isBlank c = true) ∧
          String.ofList (word.map Char.toLower) ∈ wordsFor value := by
  rw [answer?_eq_some_iff]
  constructor
  . intro h
    obtain ⟨before, after, htext, hblank⟩ := Text.exists_trim text.toList
    exact ⟨before, _, after, htext, hblank, h⟩
  . rintro ⟨before, word, after, htext, hblank, hword⟩
    obtain ⟨hne, hnot⟩ := not_isBlank_of_mem_wordsFor hword
    rw [String.toList_ofList] at hne hnot
    rw [htext, Text.trim_append hblank]
    . exact hword
    . exact fun hnil => hne (congrArg (List.map Char.toLower) hnil)
    . intro c hc
      -- a blank would be a letter of the word as it is
      rw [← Bool.not_eq_true]
      intro hblank
      have hlower := hnot _ (List.mem_map_of_mem hc)
      rw [Text.toLower_eq_of_isBlank hblank, hblank] at hlower
      contradiction

theorem reply?_eq_ok_iff {line : List UInt8} {value : Bool}
    : reply? line = some (.ok value) ↔ Means line value := by
  unfold reply? Means
  cases Text.decode? line with
  | none => simp
  | some text => simp [answer?_eq_some_iff_exists]

theorem reply?_eq_error_iff {line : List UInt8} {e : InputError}
    : reply? line = some (.error e) ↔ Text.decode? line = none ∧ e = .notText := by
  unfold reply?
  cases Text.decode? line with
  | none => simp [eq_comm]
  | some text => simp

/--
One call: the lines that it read and passed over, the line that settled it, and its result. At the end of the
input no line is left that could settle it.
-/
structure Turn where
  name : Name
  skipped : List (List UInt8)
  last : Option (List UInt8)
  result : Except InputError Bool
  unsettled : ∀ line ∈ skipped, reply? line = none
  settled : last.elim (result = .error (.noAnswer name)) (reply? · = some result)

namespace Turn

def lines (t : Turn) : List (List UInt8) :=
  t.skipped ++ t.last.toList

/--
What a call writes: a question for each line that it reads and for the end of the input if it comes there, and
a remark behind each line that is no answer.
-/
def text (t : Turn) : String :=
  String.join (t.lines.map fun line =>
    t.name.text ++ " = " ++ if reply? line = none then "expected 0 or 1\n" else "") ++
  if t.last = none then t.name.text ++ " = " else ""

end Turn

/--
The calls `turns` lead from `p` to `p'`. They read the lines in order, each once, and come to the end of the
input only if no line is left.
-/
structure Dialogue (p : Prompt) (turns : List Turn) (p' : Prompt) : Prop where
  lines : p.lines = turns.flatMap (·.lines) ++ p'.lines
  output : p'.output = p.output ++ String.join (turns.map (·.text))
  exhausted : ∀ before t after, turns = before ++ t :: after → t.last = none →
    p'.lines = [] ∧ ∀ u ∈ after, u.lines = []

def askAll (p : Prompt) : List Name → List (Except InputError Bool) × Prompt
  | [] => ([], p)
  | name :: names =>
    let (result, p) := p.ask name
    let (results, p) := p.askAll names
    (result :: results, p)

theorem question_eq (name : Name) : question name = name.text ++ " = " := rfl

namespace Dialogue

variable {p q p' : Prompt} {t : Turn} {turns : List Turn}

theorem nil (p : Prompt) : Dialogue p [] p where
  lines := rfl
  output := by simp
  exhausted := by simp

theorem single (hlines : p.lines = t.lines ++ p'.lines) (houtput : p'.output = p.output ++ t.text)
    (hexhausted : t.last = none → p'.lines = []) : Dialogue p [t] p' where
  lines := by
    rw [List.flatMap_singleton]
    exact hlines
  output := by simp [houtput]
  exhausted := by
    intro before u after heq hlast
    obtain ⟨rfl, hcons⟩ := List.append_eq_singleton_iff.mp heq.symm |>.resolve_right (by simp)
    cases hcons
    exact ⟨hexhausted hlast, by simp⟩

theorem cons (h : Dialogue p [t] q) (hs : Dialogue q turns p') : Dialogue p (t :: turns) p' where
  lines := by
    have hlines := h.lines
    rw [List.flatMap_singleton] at hlines
    rw [hlines, hs.lines, List.flatMap_cons, List.append_assoc]
  output := by
    have houtput := h.output
    rw [hs.output, houtput]
    simp [String.append_assoc]
  exhausted := by
    intro before u after heq hlast
    cases before with
    | cons x before =>
      obtain ⟨rfl, hturns⟩ := List.cons.inj heq
      exact hs.exhausted before u after hturns hlast
    | nil =>
      obtain ⟨rfl, rfl⟩ := List.cons.inj heq
      have hnil := (h.exhausted [] t [] rfl hlast).left
      rw [hs.lines, List.append_eq_nil_iff, List.flatMap_eq_nil_iff] at hnil
      exact ⟨hnil.right, hnil.left⟩

theorem skip {line : List UInt8} {lines : List (List UInt8)} {output : String}
    (h : Dialogue ⟨lines, output ++ question t.name ++ again⟩ [t] p') (hline : reply? line = none)
    : Dialogue ⟨line :: lines, output⟩
        [{ t with
            skipped := line :: t.skipped
            unsettled := List.forall_mem_cons.mpr ⟨hline, t.unsettled⟩ }] p' := by
  have hlines := h.lines
  have houtput := h.output
  rw [List.flatMap_singleton] at hlines
  apply single
  . exact congrArg _ hlines
  . rw [houtput, question_eq]
    simp [Turn.text, Turn.lines, hline, again, String.append_assoc]
  . exact fun hlast => (h.exhausted [] t [] rfl hlast).left

end Dialogue

theorem askLines_cons (name : Name) (line : List UInt8) (lines : List (List UInt8)) (output : String)
    : askLines name (line :: lines) output =
        match reply? line with
        | some result => (result, ⟨lines, output ++ question name⟩)
        | none => askLines name lines (output ++ question name ++ again) := by
  rw [askLines]
  unfold reply?
  cases Text.decode? line with
  | none => rfl
  | some text =>
    dsimp only
    cases answer? text <;> rfl

theorem exists_turn (name : Name) (lines : List (List UInt8)) (output : String)
    : ∃ t : Turn, t.name = name ∧ t.result = (askLines name lines output).1 ∧
        Dialogue ⟨lines, output⟩ [t] (askLines name lines output).2 := by
  induction lines generalizing output with
  | nil =>
    refine ⟨⟨name, [], none, .error (.noAnswer name), by simp, rfl⟩, rfl, rfl, ?_⟩
    exact .single rfl (by simp [Turn.text, Turn.lines, askLines, question_eq]) (fun _ => rfl)
  | cons line lines ih =>
    rw [askLines_cons]
    cases hline : reply? line with
    | some result =>
      refine ⟨⟨name, [], some line, result, by simp, hline⟩, rfl, rfl, ?_⟩
      exact .single rfl (by simp [Turn.text, Turn.lines, hline, question_eq]) (by simp)
    | none =>
      obtain ⟨t, rfl, hresult, h⟩ := ih (output ++ question name ++ again)
      refine ⟨_, ?_, ?_, h.skip hline⟩
      . rfl
      . exact hresult

theorem exists_turns (p : Prompt) (names : List Name)
    : ∃ turns : List Turn, turns.map (·.name) = names ∧ turns.map (·.result) = (p.askAll names).1 ∧
        Dialogue p turns (p.askAll names).2 := by
  induction names generalizing p with
  | nil => exact ⟨[], rfl, rfl, .nil p⟩
  | cons name names ih =>
    obtain ⟨t, hname, hresult, ht⟩ := exists_turn name p.lines p.output
    obtain ⟨turns, hnames, hresults, hturns⟩ := ih (p.ask name).2
    refine ⟨t :: turns, ?_, ?_, ht.cons hturns⟩
    . rw [List.map_cons, hname, hnames]
    . rw [List.map_cons, hresult, hresults]
      rfl

namespace Dialogue

variable {p p' : Prompt} {t : Turn} {turns : List Turn}

theorem tail (h : Dialogue p (t :: turns) p')
    : ∃ q : Prompt, p.lines = t.lines ++ q.lines ∧ Dialogue q turns p' ∧ (t.last = none → q.lines = []) := by
  refine ⟨⟨turns.flatMap (·.lines) ++ p'.lines, p.output ++ t.text⟩, ?_, ⟨rfl, ?_, ?_⟩, ?_⟩
  . rw [h.lines, List.flatMap_cons, List.append_assoc]
  . rw [h.output, List.map_cons, String.join_cons, String.append_assoc]
  . rintro before u after rfl
    exact h.exhausted (t :: before) u after rfl
  . intro hlast
    obtain ⟨hnil, hafter⟩ := h.exhausted [] t turns rfl hlast
    rw [List.append_eq_nil_iff, List.flatMap_eq_nil_iff]
    exact ⟨hafter, hnil⟩

theorem result_getElem? (h : Dialogue p turns p') (i : Nat)
    : (turns.map (·.result))[i]? = (turns.map (·.name))[i]?.map fun name =>
        (p.lines.filterMap reply?)[i]?.getD (.error (.noAnswer name)) := by
  induction turns generalizing p i with
  | nil => rfl
  | cons t turns ih =>
    obtain ⟨q, hlines, htail, hexhausted⟩ := h.tail
    have hreplies : p.lines.filterMap reply? = t.last.toList.filterMap reply? ++ q.lines.filterMap reply? := by
      have hskipped : t.skipped.filterMap reply? = [] := List.filterMap_eq_nil_iff.mpr t.unsettled
      rw [hlines, Turn.lines, List.filterMap_append, List.filterMap_append, hskipped, List.nil_append]
    have hsettled := t.settled
    cases hlast : t.last with
    | some line =>
      rw [hlast, Option.elim_some] at hsettled
      rw [hreplies, hlast, Option.toList_some, List.filterMap_cons_some hsettled]
      cases i with
      | zero => rfl
      | succ i => exact ih htail i
    | none =>
      rw [hlast, Option.elim_none] at hsettled
      have hq := hexhausted hlast
      rw [hreplies, hlast, hq]
      cases i with
      | zero => exact congrArg some hsettled
      | succ i =>
        rw [List.map_cons, List.map_cons, List.getElem?_cons_succ, List.getElem?_cons_succ, ih htail i, hq]
        rfl

end Dialogue

/--
A dialogue neither loses nor repeats nor reorders anything. The lines of the input are used up in order, the
replies to them are the results of the calls in order, and each call that finds no more lines fails.
-/
theorem askAll_exact (bytes : List UInt8) (names : List Name)
    : let lines := splitLines bytes
      let answered := (ofBytes bytes).askAll names
      (∀ lines', Divides bytes lines' ↔ lines' = lines) ∧
        (∀ line value, reply? line = some (.ok value) ↔ Means line value) ∧
        (∀ line e, reply? line = some (.error e) ↔ Text.decode? line = none ∧ e = .notText) ∧
        (∀ i : Nat, answered.1[i]? = names[i]?.map fun name =>
          (lines.filterMap reply?)[i]?.getD (.error (.noAnswer name))) ∧
        ∃ turns : List Turn, turns.map (·.name) = names ∧ turns.map (·.result) = answered.1 ∧
          lines = turns.flatMap (·.lines) ++ answered.2.lines ∧
          (∀ before t after, turns = before ++ t :: after → t.last = none →
            answered.2.lines = [] ∧ ∀ u ∈ after, u.lines = []) ∧
          answered.2.output = String.join (turns.map (·.text)) := by
  intro lines answered
  obtain ⟨turns, hnames, hresults, h⟩ := exists_turns (ofBytes bytes) names
  have houtput := h.output
  refine ⟨fun _ => divides_iff, fun _ _ => reply?_eq_ok_iff, fun _ _ => reply?_eq_error_iff, ?_,
    turns, hnames, hresults, h.lines, h.exhausted, ?_⟩
  . intro i
    have hresult := h.result_getElem? i
    rw [hresults, hnames] at hresult
    exact hresult
  . rw [houtput]
    exact String.empty_append

def shortInput : List UInt8 :=
  [0x3F, 0x0A, 0x20, 0x59, 0x0D, 0x0A, 0xFF, 0x0A]

theorem askAll_shortInput
    : let answered := (ofBytes shortInput).askAll [⟨"X1"⟩, ⟨"P2"⟩, ⟨"X3"⟩]
      Divides shortInput [[0x3F, 0x0A], [0x20, 0x59, 0x0D, 0x0A], [0xFF, 0x0A]] ∧
        Means [0x20, 0x59, 0x0D, 0x0A] true ∧ answered.1[0]? = some (.ok true) ∧
        answered.1[1]? = some (.error .notText) ∧ answered.1[2]? = some (.error (.noAnswer ⟨"X3"⟩)) ∧
        answered.2.output = "X1 = expected 0 or 1\nX1 = P2 = X3 = " := by
  intro answered
  obtain ⟨hlines, hmeans, _, hresults, _⟩ := askAll_exact shortInput [⟨"X1"⟩, ⟨"P2"⟩, ⟨"X3"⟩]
  refine ⟨(hlines _).mpr ?_, (hmeans _ _).mp ?_, ?_, ?_, ?_, ?_⟩
  . decide
  . decide +kernel
  . rw [hresults]
    decide +kernel
  . rw [hresults]
    decide +kernel
  . rw [hresults]
    decide +kernel
  . decide +kernel

end Prompt

end LogicalScheme
