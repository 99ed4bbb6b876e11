import Mathlib.Data.List.Basic
import Mathlib.Logic.Function.Basic
import Mathlib.Tactic.Common

namespace Shell

def SIZE : ℕ := 1024

abbrev Word := List Char

abbrev Args := ℕ → Option Word

def bar : Word := ['|']
def less : Word := ['<']
def greater : Word := ['>']
def append : Word := ['>', '>']

def isRedir (w : Word) : Bool := w = greater || w = less || w = append

def isOperator (w : Word) : Bool := w = bar || isRedir w

section Words

def wordsFrom (a : Args) : ℕ → ℕ → List Word
  | 0, _ => []
  | n + 1, i =>
    match a i with
    | none => []
    | some w => w :: wordsFrom a n (i + 1)

def wordsAt (a : Args) (i : ℕ) : List Word := wordsFrom a (SIZE - i) i

def words (a : Args) : List Word := wordsAt a 0

variable {a : Args} {i : ℕ}

theorem wordsAt_none (h : a i = none) : wordsAt a i = [] := by
  simp only [wordsAt]
  cases SIZE - i <;> simp [wordsFrom, h]

theorem wordsAt_some (hi : i < SIZE) {w : Word} (h : a i = some w) :
    wordsAt a i = w :: wordsAt a (i + 1) := by
  have hn : SIZE - i = SIZE - (i + 1) + 1 := by omega
  simp only [wordsAt, hn, wordsFrom, h]

theorem words_head (a : Args) : (words a).head? = a 0 := by
  cases h : a 0 with
  | none => rw [words, wordsAt_none h]; rfl
  | some w => rw [words, wordsAt_some (by decide) h]; rfl

theorem wordsAt_eq (l : List Word) : ∀ i, (∀ j ≤ l.length, a (i + j) = l[j]?) →
    i + l.length < SIZE → wordsAt a i = l := by
  induction l with
  | nil => exact fun i h _ => wordsAt_none (h 0 (Nat.le_refl _))
  | cons w l ih =>
    intro i h hlt
    simp only [List.length_cons] at h hlt
    have hrest : wordsAt a (i + 1) = l := by
      refine ih (i + 1) (fun j hj => ?_) (by omega)
      have := h (j + 1) (by omega)
      rwa [List.getElem?_cons_succ, show i + (j + 1) = i + 1 + j by omega] at this
    have hfirst : a i = some w := h 0 (by omega)
    rw [wordsAt_some (by omega) hfirst, hrest]

theorem entry_of_wordsAt (l : List Word) : ∀ i, wordsAt a i = l → i + l.length < SIZE →
    ∀ j ≤ l.length, a (i + j) = l[j]? := by
  induction l with
  | nil =>
    intro i h hlt j hj
    obtain rfl : j = 0 := Nat.le_zero.mp hj
    cases ha : a i with
    | none => rfl
    | some w =>
      rw [wordsAt_some (show i < SIZE from hlt) ha] at h
      cases h
  | cons w l ih =>
    intro i h hlt j hj
    simp only [List.length_cons] at hlt hj
    cases ha : a i with
    | none =>
      rw [wordsAt_none ha] at h
      cases h
    | some u =>
      rw [wordsAt_some (by omega) ha] at h
      obtain ⟨rfl, hl⟩ := List.cons.inj h
      cases j with
      | zero => exact ha
      | succ j =>
        rw [List.getElem?_cons_succ, ← ih (i + 1) hl (by omega) j (by omega)]
        congr 1
        omega

end Words

section Searches

structure Redirection where
  input : Bool
  output : Bool
  inputRedir : ℕ
  outputRedir : ℕ
  appendFlag : Bool
  appendRedir : ℕ

def Redirection.unset : Redirection := ⟨false, false, 0, 0, false, 0⟩

def Redirection.note (r : Redirection) (w : Word) (i : ℕ) : Redirection :=
  let r := if w = less then { r with input := true, inputRedir := i } else r
  let r := if w = greater then { r with output := true, outputRedir := i } else r
  if w = append then { r with appendFlag := true, appendRedir := i } else r

def searchForRedirection (args : Args) (r : Redirection) : Redirection :=
  (words args).zipIdx.foldl (fun r p => r.note p.1 p.2) r

def searchForPipe (args : Args) (pipeflag : Bool) (pipeCounter : ℕ) : Bool × ℕ :=
  (words args).foldl (fun r w => if w = bar then (true, r.2 + 1) else r) (pipeflag, pipeCounter)

def Redirection.any (r : Redirection) : Bool := r.input || r.output || r.appendFlag

theorem note_any (r : Redirection) (w : Word) (i : ℕ) :
    (r.note w i).any = (r.any || isRedir w) := by
  simp only [Redirection.note, Redirection.any, isRedir]
  split_ifs <;> simp_all

theorem searchForRedirection_any (args : Args) :
    (searchForRedirection args .unset).any = (words args).any isRedir := by
  have hfold (l : List (Word × ℕ)) (r : Redirection) :
      (l.foldl (fun r p => r.note p.1 p.2) r).any = (r.any || (l.map Prod.fst).any isRedir) := by
    induction l generalizing r with
    | nil => simp
    | cons p l ih => simp [List.foldl_cons, ih, note_any, Bool.or_assoc]
  rw [searchForRedirection, hfold, List.zipIdx_map_fst]
  rfl

theorem searchForPipe_counter (args : Args) (flag : Bool) (n : ℕ) :
    (searchForPipe args flag n).2 = n + (words args).count bar := by
  have hfold (l : List Word) (r : Bool × ℕ) :
      (l.foldl (fun r w => if w = bar then (true, r.2 + 1) else r) r).2 = r.2 + l.count bar := by
    induction l generalizing r with
    | nil => simp
    | cons w l ih =>
      rw [List.foldl_cons, ih, List.count_cons]
      by_cases h : w = bar
      · simp [h]; omega
      · simp [h]
  exact hfold _ _

end Searches

structure ArgVector where
  args : Args
  numArgs : ℕ
  lt_size : numArgs < SIZE
  word : ∀ i < numArgs, (args i).isSome = true
  null : args numArgs = none

namespace ArgVector
variable (v : ArgVector)

def words : List Word := Shell.words v.args

def pipeCounter : ℕ := (searchForPipe v.args false 0).2

def redirection : Redirection := searchForRedirection v.args .unset

def ofWords (ws : List Word) (h : ws.length < SIZE) : ArgVector where
  args := fun i => ws[i]?
  numArgs := ws.length
  lt_size := h
  word := fun i hi => by simp [hi]
  null := by simp

theorem pipeCounter_eq : v.pipeCounter = v.words.count bar := by
  rw [pipeCounter, searchForPipe_counter, Nat.zero_add]
  rfl

theorem redirection_any : v.redirection.any = v.words.any isRedir :=
  searchForRedirection_any v.args

variable {v}

theorem some_of_lt {i : ℕ} (hi : i < v.numArgs) : ∃ w, v.args i = some w :=
  Option.isSome_iff_exists.mp (v.word i hi)

theorem length_wordsAt {i : ℕ} (hi : i ≤ v.numArgs) : (wordsAt v.args i).length = v.numArgs - i := by
  induction hn : v.numArgs - i generalizing i with
  | zero =>
    have : i = v.numArgs := by omega
    rw [wordsAt_none (this ▸ v.null)]
    rfl
  | succ n ih =>
    obtain ⟨w, hw⟩ := some_of_lt (v := v) (i := i) (by omega)
    have hlt := v.lt_size
    rw [wordsAt_some (by omega) hw, List.length_cons, ih (by omega) (by omega)]

theorem wordsAt_add {i m : ℕ} (hm : i + m ≤ v.numArgs) :
    wordsAt v.args (i + m) = (wordsAt v.args i).drop m := by
  induction m with
  | zero => rfl
  | succ m ih =>
    obtain ⟨w, hw⟩ := some_of_lt (v := v) (i := i + m) (by omega)
    have hlt := v.lt_size
    rw [← List.drop_drop, ← ih (by omega), wordsAt_some (by omega) hw]
    rfl

theorem length_words : v.words.length = v.numArgs := length_wordsAt (Nat.zero_le _)

theorem redirection_lt : v.redirection.inputRedir + 1 < SIZE ∧
    v.redirection.outputRedir + 1 < SIZE ∧ v.redirection.appendRedir + 1 < SIZE := by
  have hfold (l : List (Word × ℕ)) (r : Redirection) (hl : ∀ p ∈ l, p.2 + 1 < SIZE)
      (hr : r.inputRedir + 1 < SIZE ∧ r.outputRedir + 1 < SIZE ∧ r.appendRedir + 1 < SIZE) :
      (l.foldl (fun r p => r.note p.1 p.2) r).inputRedir + 1 < SIZE ∧
      (l.foldl (fun r p => r.note p.1 p.2) r).outputRedir + 1 < SIZE ∧
      (l.foldl (fun r p => r.note p.1 p.2) r).appendRedir + 1 < SIZE := by
    induction l generalizing r with
    | nil => exact hr
    | cons p l ih =>
      refine ih _ (fun q hq => hl q (List.mem_cons_of_mem _ hq)) ?_
      have hp := hl p List.mem_cons_self
      simp only [Redirection.note]
      split_ifs <;> simp_all
  refine hfold _ _ (fun p hp => ?_) (by decide)
  have hlen := v.length_words
  have hlt := v.lt_size
  have hi : p.2 < 0 + v.words.length := by
    have := List.snd_lt_of_mem_zipIdx hp
    rwa [Nat.add_comm] at this
  omega

end ArgVector

section Parse

def DELIMS : List Char := [' ', '\t', '\r', '\n']

def strsep : Option Word → Option (Word × Option Word)
  | none => none
  | some s =>
    match s.span (· ∉ DELIMS) with
    | (tok, []) => some (tok, none)
    | (tok, _ :: rest) => some (tok, some rest)

def fillBuf : ℕ → Option Word → List (Option Word)
  | 0, _ => []
  | n + 1, wbuf =>
    match strsep wbuf with
    | none => [none]
    | some (tok, wbuf) => some tok :: fillBuf n wbuf

structure Parsed where
  args : Args
  numArgs : ℕ
  timeFlag : Bool
  ampershandFlag : Bool

def mytime : Word := ['m', 'y', 't', 'i', 'm', 'e']
def ampersand : Word := ['&']

-- the second loop; past the entries written to buf_args it has no defined value
def keepArgs : List (Option Word) → Args → ℕ → Bool → Bool → Option Parsed
  | [], _, _, _, _ => none
  | none :: _, args, j, timeFlag, ampershandFlag =>
    some ⟨Function.update args j none, j, timeFlag, ampershandFlag⟩
  | some tok :: buf_args, args, j, timeFlag, ampershandFlag =>
    if tok = mytime then keepArgs buf_args args j true ampershandFlag
    else if tok = ampersand then keepArgs buf_args args j timeFlag true
    else if 0 < tok.length then
      keepArgs buf_args (Function.update args j (some tok)) (j + 1) timeFlag ampershandFlag
    else keepArgs buf_args args j timeFlag ampershandFlag

def parseArguments (buffer : Word) (args : Args) (timeFlag ampershandFlag : Bool) : Option Parsed :=
  keepArgs (fillBuf SIZE (some buffer)) (Function.update args 0 (some buffer)) 0
    timeFlag ampershandFlag

theorem length_fillBuf (n : ℕ) : ∀ wbuf, (fillBuf n wbuf).length ≤ n := by
  induction n with
  | zero => exact fun _ => Nat.le_refl _
  | succ n ih =>
    intro wbuf
    simp only [fillBuf]
    split
    · simp
    · simpa using ih _

theorem keepArgs_vector (buf_args : List (Option Word)) :
    ∀ (args : Args) (j : ℕ) (timeFlag ampershandFlag : Bool) (p : Parsed),
      (∀ i < j, (args i).isSome = true) → keepArgs buf_args args j timeFlag ampershandFlag = some p →
      p.numArgs < j + buf_args.length ∧ (∀ i < p.numArgs, (p.args i).isSome = true) ∧
        p.args p.numArgs = none := by
  induction buf_args with
  | nil => intro _ _ _ _ _ _ h; cases h
  | cons b buf_args ih =>
    intro args j timeFlag ampershandFlag p hargs h
    have hlen : (b :: buf_args).length = buf_args.length + 1 := rfl
    cases b with
    | none =>
      cases h
      refine ⟨by simp, fun i hi => ?_, by simp⟩
      have hij : i ≠ j := Nat.ne_of_lt hi
      simpa [hij] using hargs i hi
    | some tok =>
      simp only [keepArgs] at h
      split_ifs at h with h1 h2 h3
      · obtain ⟨hlt, hp⟩ := ih args j true ampershandFlag p hargs h
        exact ⟨by omega, hp⟩
      · obtain ⟨hlt, hp⟩ := ih args j timeFlag true p hargs h
        exact ⟨by omega, hp⟩
      · have hargs' : ∀ i < j + 1, (Function.update args j (some tok) i).isSome = true := by
          intro i hi
          by_cases hij : i = j
          · simp [hij]
          · simpa [hij] using hargs i (by omega)
        obtain ⟨hlt, hp⟩ := ih _ (j + 1) timeFlag ampershandFlag p hargs' h
        exact ⟨by omega, hp⟩
      · obtain ⟨hlt, hp⟩ := ih args j timeFlag ampershandFlag p hargs h
        exact ⟨by omega, hp⟩

def Parsed.vector {buffer : Word} {args : Args} {timeFlag ampershandFlag : Bool} {p : Parsed}
    (h : parseArguments buffer args timeFlag ampershandFlag = some p) : ArgVector where
  args := p.args
  numArgs := p.numArgs
  lt_size := by
    have hp := keepArgs_vector _ _ _ _ _ _ (by simp) h
    have := length_fillBuf SIZE (some buffer)
    omega
  word := (keepArgs_vector _ _ _ _ _ _ (by simp) h).2.1
  null := (keepArgs_vector _ _ _ _ _ _ (by simp) h).2.2

end Parse
end Shell
