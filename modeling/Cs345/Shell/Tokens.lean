import Cs345.Fields
import Cs345.Shell.Args
import Mathlib.Data.List.TakeDrop

namespace Shell

def isDelim (c : Char) : Bool := c ∈ DELIMS

section Separate

def entries : Option Word → List (Option Word)
  | none => [none]
  | some s => (s.splitOnP isDelim).map some ++ [none]

theorem span_delim {first : Word} (h : ∀ c ∈ first, isDelim c = false) (rest : Word) :
    (first ++ rest).span (· ∉ DELIMS) =
      (first ++ rest.takeWhile (· ∉ DELIMS), rest.dropWhile (· ∉ DELIMS)) := by
  have hfirst : ∀ c ∈ first, decide (c ∉ DELIMS) = true := fun c hc => by
    simpa [isDelim] using h c hc
  rw [List.span_eq_takeWhile_dropWhile, List.takeWhile_append_of_pos hfirst,
    List.dropWhile_append_of_pos hfirst]

theorem strsep_single {s : Word} (h : ∀ c ∈ s, isDelim c = false) :
    strsep (some s) = some (s, none) := by
  have hspan := span_delim h []
  rw [List.append_nil] at hspan
  rw [strsep, hspan, List.takeWhile_nil, List.append_nil]
  rfl

theorem strsep_delim {first rest : Word} {sep : Char} (h : ∀ c ∈ first, isDelim c = false)
    (hsep : isDelim sep = true) :
    strsep (some (first ++ sep :: rest)) = some (first, some rest) := by
  have hstop : sep ∈ DELIMS := by simpa [isDelim] using hsep
  have hspan : (first ++ sep :: rest).span (· ∉ DELIMS) = (first, sep :: rest) := by
    rw [span_delim h]
    simp [hstop]
  rw [strsep, hspan]

theorem fillBuf_eq (n : ℕ) : ∀ wbuf, fillBuf n wbuf = (entries wbuf).take n := by
  induction n with
  | zero => exact fun wbuf => (List.take_zero).symm
  | succ n ih =>
    intro wbuf
    cases wbuf with
    | none => simp [fillBuf, strsep, entries]
    | some s =>
      rcases Fields.splitOnP_cases isDelim s with
        ⟨hall, hone⟩ | ⟨first, sep, rest, rfl, hfirst, hsep, hcut⟩
      · simp [fillBuf, strsep_single hall, entries, hone, ih]
      · simp [fillBuf, strsep_delim hfirst hsep, entries, hcut, ih]

end Separate

section Keep

def isWord (tok : Word) : Bool := tok ≠ mytime && tok ≠ ampersand && !tok.isEmpty

theorem keepArgs_none (toks : List Word) : ∀ (args : Args) (j : ℕ) (timeFlag ampershandFlag : Bool),
    keepArgs (toks.map some) args j timeFlag ampershandFlag = none := by
  induction toks with
  | nil => exact fun _ _ _ _ => rfl
  | cons tok toks ih =>
    intro args j timeFlag ampershandFlag
    simp only [List.map_cons, keepArgs]
    split_ifs <;> exact ih _ _ _ _

structure Kept (toks : List Word) (args : Args) (j : ℕ) (timeFlag ampershandFlag : Bool)
    (p : Parsed) : Prop where
  numArgs : p.numArgs = j + (toks.filter isWord).length
  below : ∀ i < j, p.args i = args i
  words : ∀ i ≤ (toks.filter isWord).length, p.args (j + i) = (toks.filter isWord)[i]?
  timeFlag : p.timeFlag = (timeFlag || toks.contains mytime)
  ampershandFlag : p.ampershandFlag = (ampershandFlag || toks.contains ampersand)

section Step
variable {tok : Word} {toks : List Word} {args : Args} {j : ℕ} {p : Parsed}
  {timeFlag ampershandFlag timeFlag' ampershandFlag' : Bool}

theorem Kept.skip (hkept : Kept toks args j timeFlag' ampershandFlag' p)
    (hword : isWord tok = false) (htime : timeFlag' = (timeFlag || mytime == tok))
    (hamp : ampershandFlag' = (ampershandFlag || ampersand == tok)) :
    Kept (tok :: toks) args j timeFlag ampershandFlag p := by
  have hfilter : (tok :: toks).filter isWord = toks.filter isWord :=
    List.filter_cons_of_neg (by simp [hword])
  obtain ⟨hnum, hbelow, hwords, ht, ha⟩ := hkept
  refine ⟨by rw [hfilter, hnum], hbelow, by rwa [hfilter], ?_, ?_⟩
  · rw [ht, htime, Bool.or_assoc, List.contains_cons]
  · rw [ha, hamp, Bool.or_assoc, List.contains_cons]

theorem Kept.word (hkept : Kept toks (Function.update args j (some tok)) (j + 1) timeFlag
    ampershandFlag p) (hword : isWord tok = true) :
    Kept (tok :: toks) args j timeFlag ampershandFlag p := by
  have hfilter : (tok :: toks).filter isWord = tok :: toks.filter isWord :=
    List.filter_cons_of_pos hword
  obtain ⟨⟨htime, hamp⟩, -⟩ : (¬ tok = mytime ∧ ¬ tok = ampersand) ∧ ¬ tok = [] := by
    simpa [isWord] using hword
  obtain ⟨hnum, hbelow, hwords, ht, ha⟩ := hkept
  refine ⟨by rw [hfilter, hnum, List.length_cons]; omega, fun i hi => ?_, fun i hi => ?_, ?_, ?_⟩
  · rw [hbelow i (by omega), Function.update_of_ne (by omega)]
  · rw [hfilter] at hi ⊢
    cases i with
    | zero =>
      rw [Nat.add_zero, hbelow j (by omega), Function.update_self]
      rfl
    | succ i =>
      rw [List.getElem?_cons_succ, ← hwords i (by simpa using hi)]
      congr 1
      omega
  · rw [ht, List.contains_cons, beq_eq_false_iff_ne.mpr (Ne.symm htime), Bool.false_or]
  · rw [ha, List.contains_cons, beq_eq_false_iff_ne.mpr (Ne.symm hamp), Bool.false_or]

end Step

theorem keepArgs_kept (toks : List Word) (more : List (Option Word)) :
    ∀ (args : Args) (j : ℕ) (timeFlag ampershandFlag : Bool),
      ∃ p, keepArgs (toks.map some ++ none :: more) args j timeFlag ampershandFlag = some p ∧
        Kept toks args j timeFlag ampershandFlag p := by
  induction toks with
  | nil =>
    intro args j timeFlag ampershandFlag
    refine ⟨_, rfl, rfl, fun i hi => Function.update_of_ne (by omega) _ _, fun i hi => ?_,
      (Bool.or_false _).symm, (Bool.or_false _).symm⟩
    obtain rfl : i = 0 := by simpa using hi
    exact Function.update_self _ _ _
  | cons tok toks ih =>
    intro args j timeFlag ampershandFlag
    simp only [List.map_cons, List.cons_append, keepArgs]
    split_ifs with htime hamp hlen
    · obtain ⟨p, hp, hkept⟩ := ih args j true ampershandFlag
      refine ⟨p, hp, hkept.skip (by simp [isWord, htime]) (by simp [htime]) ?_⟩
      simp [htime, mytime, ampersand]
    · obtain ⟨p, hp, hkept⟩ := ih args j timeFlag true
      refine ⟨p, hp, hkept.skip (by simp [isWord, hamp]) ?_ (by simp [hamp])⟩
      simp [hamp, mytime, ampersand]
    · obtain ⟨p, hp, hkept⟩ := ih (Function.update args j (some tok)) (j + 1) timeFlag ampershandFlag
      refine ⟨p, hp, hkept.word ?_⟩
      simp [isWord, htime, hamp, List.length_pos_iff.mp hlen]
    · obtain ⟨p, hp, hkept⟩ := ih args j timeFlag ampershandFlag
      obtain rfl : tok = [] := List.length_eq_zero_iff.mp (by omega)
      exact ⟨p, hp, hkept.skip rfl (by simp [mytime]) (by simp [ampersand])⟩

end Keep

section Parse
variable {line : Word} {args : Args}

def delims (line : Word) : ℕ := line.countP isDelim

theorem length_fields (line : Word) : (line.splitOnP isDelim).length = delims line + 1 :=
  Fields.length_splitOnP isDelim line

theorem fillBuf_short (h : delims line + 1 < SIZE) :
    fillBuf SIZE (some line) = (line.splitOnP isDelim).map some ++ [none] := by
  rw [fillBuf_eq, entries, List.take_of_length_le]
  rw [List.length_append, List.length_map, length_fields]
  exact h

theorem fillBuf_full (h : SIZE ≤ delims line + 1) :
    fillBuf SIZE (some line) = ((line.splitOnP isDelim).take SIZE).map some := by
  rw [fillBuf_eq, entries, List.take_append_of_le_length, List.map_take]
  rw [List.length_map, length_fields]
  exact h

theorem parseArguments_short (h : delims line + 1 < SIZE) (args : Args) :
    ∃ p, parseArguments line args false false = some p ∧
      Kept (line.splitOnP isDelim) (Function.update args 0 (some line)) 0 false false p := by
  rw [parseArguments, fillBuf_short h]
  exact keepArgs_kept _ [] _ 0 false false

theorem parseArguments_full (h : SIZE ≤ delims line + 1) (args : Args) :
    parseArguments line args false false = none := by
  rw [parseArguments, fillBuf_full h]
  exact keepArgs_none _ _ _ _ _

theorem parses_iff :
    (parseArguments line args false false).isSome = true ↔ delims line + 1 < SIZE := by
  constructor
  · intro hp
    by_contra hfull
    rw [parseArguments_full (Nat.not_lt.mp hfull)] at hp
    cases hp
  · intro h
    obtain ⟨p, hp, -⟩ := parseArguments_short h args
    rw [hp]
    rfl

def isFlag (w : Word) : Bool := w = mytime || w = ampersand

structure Tokenized (line : Word) (p : Parsed) (ws : List Word) : Prop where
  runs : Fields.Runs isDelim line ws
  numArgs : p.numArgs = (ws.filter (!isFlag ·)).length
  args : ∀ i < p.numArgs, p.args i = (ws.filter (!isFlag ·))[i]?
  null : p.args p.numArgs = none
  timeFlag : p.timeFlag = true ↔ mytime ∈ ws
  ampershandFlag : p.ampershandFlag = true ↔ ampersand ∈ ws

theorem tokenized_of_kept {p : Parsed}
    (hkept : Kept (line.splitOnP isDelim) args 0 false false p) :
    Tokenized line p (Fields.nonempty isDelim line) := by
  have hwords : (Fields.nonempty isDelim line).filter (!isFlag ·) =
      (line.splitOnP isDelim).filter isWord := by
    rw [Fields.nonempty, List.filter_filter]
    refine List.filter_congr fun w _ => ?_
    simp [isFlag, isWord]
  have hflag (w : Word) (hw : w ≠ []) :
      (line.splitOnP isDelim).contains w = true ↔ w ∈ Fields.nonempty isDelim line := by
    simp [Fields.nonempty, hw]
  obtain ⟨hnum, -, hargs, htime, hamp⟩ := hkept
  simp only [Nat.zero_add] at hnum hargs
  refine ⟨Fields.runs_iff.mpr rfl, hwords ▸ hnum, fun i hi => ?_, ?_, ?_, ?_⟩
  · rw [hwords]
    exact hargs i (by omega)
  · rw [hnum, hargs _ (Nat.le_refl _), List.getElem?_eq_none (Nat.le_refl _)]
  · rw [htime, Bool.false_or]
    exact hflag mytime (by simp [mytime])
  · rw [hamp, Bool.false_or]
    exact hflag ampersand (by simp [ampersand])

theorem delims_lt (hword : ∃ c ∈ line, c ∉ DELIMS) : delims line < line.length := by
  obtain ⟨c, hc, hdelim⟩ := hword
  refine Nat.lt_of_le_of_ne List.countP_le_length fun heq => hdelim ?_
  simpa [isDelim] using List.countP_eq_length.mp heq c hc

theorem tokens_of_line (hlen : line.length < SIZE) (hword : ∃ c ∈ line, c ∉ DELIMS) (args : Args) :
    ∃ p ws, parseArguments line args false false = some p ∧ Tokenized line p ws := by
  have hdelims := delims_lt hword
  obtain ⟨p, hp, hkept⟩ := parseArguments_short (show delims line + 1 < SIZE by omega) args
  exact ⟨p, _, hp, tokenized_of_kept hkept⟩

def timedLine : Word := mytime ++ [' ', ' ', 'l', 's', '\n']

theorem timed_line_tokens : ∃ p ws, parseArguments timedLine (fun _ => none) false false = some p ∧
    Tokenized timedLine p ws :=
  tokens_of_line (by decide) ⟨'m', by decide, by decide⟩ _

end Parse
end Shell
