import Cs345.Fields
import Cs345.Shell.Args

namespace Shell

def copyStage (args : Args) (nextPipe : ℕ) : ℕ → ℕ → Args → Option (ℕ × Args)
  | 0, _, _ => none
  | n + 1, i, tempArgs =>
    match args i with
    | none => some (i, tempArgs)
    | some w =>
      if w = bar then some (i, tempArgs)
      else copyStage args nextPipe n (i + 1) (Function.update tempArgs (i - nextPipe) (some w))

def nextArg (args tempArgs : Args) (nextPipe : ℕ) : Option (Args × ℕ) :=
  if nextPipe < SIZE then
    match args nextPipe with
    | none => some (tempArgs, nextPipe)
    | some w =>
      if w = bar then some (tempArgs, nextPipe)
      else
        -- the inner loop stops at NULL or at a '|', and there the outer loop breaks
        (copyStage args nextPipe (SIZE - nextPipe) nextPipe tempArgs).map fun (i, tempArgs) =>
          (Function.update tempArgs (i - nextPipe) none, i + 1)
  else some (tempArgs, nextPipe)

section Copy
variable {v : ArgVector} {start : ℕ}

theorem copyStage_spec (n : ℕ) : ∀ (i : ℕ) (t : Args), SIZE - i = n → start ≤ i → i ≤ v.numArgs →
    ∃ t', copyStage v.args start n i t =
        some (i + ((wordsAt v.args i).takeWhile (· ≠ bar)).length, t') ∧
      (∀ x < i - start, t' x = t x) ∧
      ∀ j < ((wordsAt v.args i).takeWhile (· ≠ bar)).length,
        t' (i - start + j) = ((wordsAt v.args i).takeWhile (· ≠ bar))[j]? := by
  induction n with
  | zero =>
    intro i t hn _ hi
    have := v.lt_size
    omega
  | succ n ih =>
    intro i t hn hstart hi
    have hlt := v.lt_size
    cases hw : v.args i with
    | none =>
      have hnil := wordsAt_none hw
      exact ⟨t, by simp [copyStage, hw, hnil], fun _ _ => rfl, by simp [hnil]⟩
    | some w =>
      have hcons := wordsAt_some (by omega) hw
      by_cases hbar : w = bar
      · exact ⟨t, by simp [copyStage, hw, hcons, hbar], fun _ _ => rfl, by simp [hcons, hbar]⟩
      · have hi' : i + 1 ≤ v.numArgs := by
          by_contra hno
          have : i = v.numArgs := by omega
          rw [this, v.null] at hw
          cases hw
        obtain ⟨t', hcopy, hlow, hseg⟩ :=
          ih (i + 1) (Function.update t (i - start) (some w)) (by omega) (by omega) hi'
        have htake : (wordsAt v.args i).takeWhile (· ≠ bar) =
            w :: (wordsAt v.args (i + 1)).takeWhile (· ≠ bar) := by
          rw [hcons, List.takeWhile_cons_of_pos (by simpa using hbar)]
        refine ⟨t', ?_, fun x hx => ?_, fun j hj => ?_⟩
        · simp only [copyStage, hw, if_neg hbar, hcopy, htake, List.length_cons]
          congr 2
          omega
        · rw [hlow x (by omega), Function.update_of_ne (by omega)]
        · rw [htake] at hj ⊢
          cases j with
          | zero =>
            rw [Nat.add_zero, hlow _ (by omega), Function.update_self]
            rfl
          | succ j =>
            rw [List.getElem?_cons_succ, ← hseg j (by simpa using hj)]
            congr 1
            omega

end Copy

theorem nextArg_spec {v : ArgVector} {c : ℕ} (t : Args) (hc : c ≤ v.numArgs) {seg : List Word}
    {more : List (List Word)} (h : (wordsAt v.args c).splitOn bar = seg :: more)
    (hne : seg ≠ []) :
    ∃ t', nextArg v.args t c = some (t', c + seg.length + 1) ∧ words t' = seg ∧
      (more ≠ [] → c + seg.length + 1 ≤ v.numArgs ∧
        (wordsAt v.args (c + seg.length + 1)).splitOn bar = more) := by
  have hlt := v.lt_size
  have hlen := ArgVector.length_wordsAt hc
  have hseg := Fields.takeWhile_of_splitOn h
  obtain ⟨t', hcopy, -, ht'⟩ := copyStage_spec (SIZE - c) c t rfl (Nat.le_refl c) hc
  rw [hseg] at hcopy ht'
  have hle : seg.length ≤ v.numArgs - c := by
    rw [← hlen, ← hseg]
    exact (List.takeWhile_sublist _).length_le
  obtain ⟨w, hw, hbar⟩ : ∃ w, v.args c = some w ∧ w ≠ bar := by
    cases hw : v.args c with
    | none =>
      rw [wordsAt_none hw] at hseg
      exact absurd hseg.symm hne
    | some w =>
      refine ⟨w, rfl, fun hbar => hne ?_⟩
      rw [← hseg, wordsAt_some (by omega) hw, List.takeWhile_cons_of_neg (by simpa using hbar)]
  have hentry (j : ℕ) (hj : j ≤ seg.length) :
      Function.update t' seg.length none (0 + j) = seg[j]? := by
    rw [Nat.zero_add]
    by_cases hjl : j = seg.length
    · simp [hjl]
    · rw [Function.update_of_ne hjl, ← ht' j (by omega)]
      congr 1
      omega
  refine ⟨Function.update t' seg.length none, ?_, wordsAt_eq seg 0 hentry (by omega), ?_⟩
  · simp [nextArg, hw, hbar, hcopy, show c < SIZE by omega]
  · intro hmore
    obtain ⟨rest, heq, hsplit⟩ := Fields.rest_of_splitOn h hmore
    have hlt' : c + seg.length + 1 ≤ v.numArgs := by
      have := congrArg List.length heq
      simp only [List.length_append, List.length_cons] at this
      omega
    refine ⟨hlt', ?_⟩
    rw [Nat.add_assoc, ArgVector.wordsAt_add (by omega), heq, ← List.drop_drop, List.drop_left]
    exact hsplit

namespace ArgVector
variable (v : ArgVector)

def stages : List (List Word) := v.words.splitOn bar

theorem length_stages : v.stages.length = v.pipeCounter + 1 := by
  rw [pipeCounter_eq]
  exact Fields.length_splitOnP _ _

def Cursor (c i : ℕ) : Prop := c ≤ v.numArgs ∧ (wordsAt v.args c).splitOn bar = v.stages.drop i

variable {v}

theorem cursor_zero : v.Cursor 0 0 := ⟨Nat.zero_le _, rfl⟩

theorem Cursor.nextArg {c i : ℕ} (h : v.Cursor c i) (hne : ∀ st ∈ v.stages, st ≠ [])
    (hi : i ≤ v.pipeCounter) (t : Args) :
    ∃ t' c', nextArg v.args t c = some (t', c') ∧ v.stages[i]? = some (Shell.words t') ∧
      (i < v.pipeCounter → v.Cursor c' (i + 1)) := by
  have hlen := v.length_stages
  obtain ⟨hc, hsplit⟩ := h
  rw [List.drop_eq_getElem_cons (by omega)] at hsplit
  obtain ⟨t', hnext, hwords, hmore⟩ := nextArg_spec t hc hsplit (hne _ (List.getElem_mem _))
  refine ⟨t', _, hnext, by rw [hwords, List.getElem?_eq_getElem], fun hlt => hmore ?_⟩
  rw [Ne, List.drop_eq_nil_iff]
  omega

end ArgVector
end Shell
