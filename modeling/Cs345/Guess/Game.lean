import Mathlib

namespace Guess

def IsLetter (c : ℕ) : Prop := (65 ≤ c ∧ c ≤ 90) ∨ (97 ≤ c ∧ c ≤ 122)

namespace Game

def answer (c g : ℕ) : ℕ := if g = c then 1 else 0

def bump (g f : ℕ) : ℕ := if f = 0 then (g + 1) % 256 else g

def play (c : ℕ) : ℕ → ℕ × ℕ
  | 0 => (64, 0)
  | r + 1 =>
    let g := bump (play c r).1 (play c r).2
    (g, answer c g)

def guess (c r : ℕ) : ℕ := min c (64 + r)

def feedback (c r : ℕ) : ℕ := if c ≤ 64 + r then 1 else 0

theorem letter_bounds {c : ℕ} (hc : IsLetter c) : 65 ≤ c ∧ c ≤ 122 := by
  rcases hc with h | h <;> omega

@[simp] theorem feedback_eq_zero {c r : ℕ} : feedback c r = 0 ↔ 64 + r < c := by
  simp only [feedback]
  split <;> omega

theorem feedback_eq_one {c r : ℕ} : feedback c r = 1 ↔ c ≤ 64 + r := by
  simp only [feedback]
  split <;> omega

theorem feedback_zero {c : ℕ} (hc : IsLetter c) : feedback c 0 = 0 := by
  have := letter_bounds hc
  simp; omega

theorem guess_one {c : ℕ} (hc : IsLetter c) : guess c 1 = 65 := by
  have := letter_bounds hc
  simp only [guess]; omega

theorem guess_of_le {c r : ℕ} (h : c ≤ 64 + r) : guess c r = c := by
  simp only [guess]; omega

theorem guess_succ_of_le {c r : ℕ} (h : c ≤ 64 + r) : guess c (r + 1) = guess c r := by
  simp only [guess]; omega

theorem guess_succ_of_lt {c r : ℕ} (hc : IsLetter c) (h : 64 + r < c) :
    (guess c r + 1) % 256 = guess c (r + 1) := by
  have := letter_bounds hc
  simp only [guess]; omega

theorem answer_guess (c r : ℕ) : answer c (guess c r) = feedback c r := by
  by_cases h : c ≤ 64 + r
  · simp [answer, feedback, guess_of_le h, h]
  · have hg : guess c r ≠ c := by simp only [guess]; omega
    simp [answer, feedback, hg, h]

theorem bump_guess {c : ℕ} (hc : IsLetter c) (r : ℕ) :
    bump (guess c r) (feedback c r) = guess c (r + 1) := by
  by_cases h : c ≤ 64 + r
  · simp [bump, feedback_eq_one.mpr h, guess_succ_of_le h]
  · have h0 : feedback c r = 0 := feedback_eq_zero.mpr (by omega)
    simp [bump, h0, guess_succ_of_lt hc (by omega : 64 + r < c)]

theorem play_eq {c : ℕ} (hc : IsLetter c) (r : ℕ) : play c r = (guess c r, feedback c r) := by
  have hb := letter_bounds hc
  induction r with
  | zero =>
    have hg : guess c 0 = 64 := by simp only [guess]; omega
    simp [play, hg, feedback_zero hc]
  | succ r ih => simp [play, ih, bump_guess hc, answer_guess]

def rounds (secret : ℕ → ℕ) (low high : ℕ) : ℕ :=
  (Finset.Ico low high).sup (fun k => secret k - 65) + 1

theorem lt_rounds_iff {secret : ℕ → ℕ} {low high r : ℕ} (hne : low < high)
    (hl : ∀ k, low ≤ k → k < high → IsLetter (secret k)) :
    r < rounds secret low high ↔ ∃ k, low ≤ k ∧ k < high ∧ 64 + r < secret k := by
  constructor
  · intro h
    obtain ⟨k, hk, hsup⟩ := Finset.exists_mem_eq_sup (Finset.Ico low high)
      ⟨low, by simp [hne]⟩ (fun k => secret k - 65)
    obtain ⟨h1, h2⟩ := Finset.mem_Ico.mp hk
    have := letter_bounds (hl k h1 h2)
    refine ⟨k, h1, h2, ?_⟩
    simp only [rounds, hsup] at h
    omega
  · rintro ⟨k, h1, h2, h⟩
    have hle : secret k - 65 ≤ (Finset.Ico low high).sup (fun k => secret k - 65) :=
      Finset.le_sup (f := fun k => secret k - 65) (Finset.mem_Ico.mpr ⟨h1, h2⟩)
    simp only [rounds]
    omega

end Game
end Guess
