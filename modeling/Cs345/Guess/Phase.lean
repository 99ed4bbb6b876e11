import Cs345.Guess.Model

namespace Guess
variable (P : Session)

def More (i r : ℕ) : Prop := ∃ k, P.low i ≤ k ∧ k < P.high i ∧ 64 + r < P.secretString k

def Guesses (s : State) (r l h : ℕ) : Prop :=
  ∀ k, l ≤ k → k < h → s.shm1 k = Game.guess (P.secretString k) r

def Answers (s : State) (r l h : ℕ) : Prop :=
  ∀ k, l ≤ k → k < h → s.shm2 k = Game.feedback (P.secretString k) r

section Turns
variable (s : State) (i : ℕ)

def ServerIdle : ServerPc → Prop
  | .found k => P.low i ≤ k ∧ k ≤ P.high i ∧ ∀ j, P.low i ≤ j → j < k → s.shm2 j ≠ 0
  | .wait => ∃ j, P.low i ≤ j ∧ j < P.high i ∧ s.shm2 j = 0
  | .exited => ∀ j, P.low i ≤ j → j < P.high i → s.shm2 j ≠ 0
  | _ => False

def ServerTurn : ServerPc → Prop
  | .compare k => P.low i ≤ k ∧ k ≤ P.high i ∧ More P i (s.rounds i) ∧
      Answers P s (s.rounds i + 1) (P.low i) k ∧ Guesses P s (s.rounds i + 1) (P.low i) (P.high i)
  | .compareWrite k c => P.low i ≤ k ∧ k < P.high i ∧ More P i (s.rounds i) ∧
      Answers P s (s.rounds i + 1) (P.low i) k ∧
      Guesses P s (s.rounds i + 1) (P.low i) (P.high i) ∧
      c = Game.guess (P.secretString k) (s.rounds i + 1)
  | .post => 1 ≤ s.rounds i ∧ More P i (s.rounds i - 1) ∧
      Answers P s (s.rounds i) (P.low i) (P.high i) ∧
      Guesses P s (s.rounds i) (P.low i) (P.high i)
  | _ => False

def Scanned (k : ℕ) : Prop :=
  1 ≤ s.rounds i ∧ More P i (s.rounds i - 1) ∧ P.low i ≤ k ∧
    Guesses P s (s.rounds i + 1) (P.low i) k ∧ Guesses P s (s.rounds i) k (P.high i)

def ClientTurn : ClientPc → Prop
  | .fill k => P.low i ≤ k ∧ k ≤ P.high i ∧ s.rounds i = 0 ∧ Guesses P s 1 (P.low i) k
  | .post => (s.rounds i = 0 ∨ More P i (s.rounds i)) ∧
      Guesses P s (s.rounds i + 1) (P.low i) (P.high i)
  | .scan k flag => k ≤ P.high i ∧ Scanned P s i k ∧
      (flag = true ↔ ∃ j, P.low i ≤ j ∧ j < k ∧ 64 + s.rounds i < P.secretString j)
  | .incr k => k < P.high i ∧ Scanned P s i k ∧ 64 + s.rounds i < P.secretString k
  | .incrWrite k c => k < P.high i ∧ Scanned P s i k ∧ 64 + s.rounds i < P.secretString k ∧
      c = Game.guess (P.secretString k) (s.rounds i)
  | .exited => 1 ≤ s.rounds i ∧ More P i (s.rounds i - 1) ∧ ¬ More P i (s.rounds i) ∧
      Guesses P s (s.rounds i) (P.low i) (P.high i)
  | .wait => False

inductive Phase : Prop
  | client : s.sem i = 0 → s.sem (i + P.M) = 0 → ServerIdle P s i (s.server i) →
      Answers P s (s.rounds i) (P.low i) (P.high i) → ClientTurn P s i (s.client i) → Phase
  | posted : s.client i = .wait → s.sem i = 1 → s.sem (i + P.M) = 0 →
      ServerIdle P s i (s.server i) → Answers P s (s.rounds i) (P.low i) (P.high i) →
      (s.rounds i = 0 ∨ More P i (s.rounds i)) →
      Guesses P s (s.rounds i + 1) (P.low i) (P.high i) → Phase
  | server : s.client i = .wait → s.sem i = 0 → s.sem (i + P.M) = 0 →
      ServerTurn P s i (s.server i) → Phase
  | answered : s.client i = .wait → s.sem i = 0 → s.sem (i + P.M) = 1 →
      ServerIdle P s i (s.server i) → Answers P s (s.rounds i) (P.low i) (P.high i) →
      1 ≤ s.rounds i → More P i (s.rounds i - 1) →
      Guesses P s (s.rounds i) (P.low i) (P.high i) → Phase

end Turns

variable {P} {s t : State} {i j : ℕ}

theorem more_of_zero (ha : Answers P s (s.rounds i) (P.low i) (P.high i)) {k : ℕ}
    (hl : P.low i ≤ k) (hh : k < P.high i) (h0 : s.shm2 k = 0) : More P i (s.rounds i) :=
  ⟨k, hl, hh, Game.feedback_eq_zero.mp (ha k hl hh ▸ h0)⟩

theorem not_more_of_ones (ha : Answers P s (s.rounds i) (P.low i) (P.high i))
    (h1 : ∀ k, P.low i ≤ k → k < P.high i → s.shm2 k ≠ 0) : ¬ More P i (s.rounds i) := by
  rintro ⟨k, hl, hh, hk⟩
  exact h1 k hl hh ((ha k hl hh).trans (Game.feedback_eq_zero.mpr hk))

theorem Guesses.snoc {r l k : ℕ} (h : Guesses P s r l k)
    (hk : s.shm1 k = Game.guess (P.secretString k) r) : Guesses P s r l (k + 1) := by
  intro m hl hm
  rcases Nat.lt_succ_iff_lt_or_eq.mp hm with hm | rfl
  · exact h m hl hm
  · exact hk

theorem Answers.snoc {r l k : ℕ} (h : Answers P s r l k)
    (hk : s.shm2 k = Game.feedback (P.secretString k) r) : Answers P s r l (k + 1) := by
  intro m hl hm
  rcases Nat.lt_succ_iff_lt_or_eq.mp hm with hm | rfl
  · exact h m hl hm
  · exact hk

structure SamePair (P : Session) (s t : State) (j : ℕ) : Prop where
  server : t.server j = s.server j
  client : t.client j = s.client j
  semA : t.sem j = s.sem j
  semB : t.sem (j + P.M) = s.sem (j + P.M)
  rounds : t.rounds j = s.rounds j
  shm1 : ∀ k, P.low j ≤ k → k < P.high j → t.shm1 k = s.shm1 k
  shm2 : ∀ k, P.low j ≤ k → k < P.high j → t.shm2 k = s.shm2 k

namespace SamePair
variable (h : SamePair P s t j)
include h

theorem guesses {r l k : ℕ} (hl : P.low j ≤ l) (hk : k ≤ P.high j) (hg : Guesses P s r l k) :
    Guesses P t r l k := fun m h1 h2 =>
  (h.shm1 m (hl.trans h1) (h2.trans_le hk)).trans (hg m h1 h2)

theorem answers {r l k : ℕ} (hl : P.low j ≤ l) (hk : k ≤ P.high j) (hg : Answers P s r l k) :
    Answers P t r l k := fun m h1 h2 =>
  (h.shm2 m (hl.trans h1) (h2.trans_le hk)).trans (hg m h1 h2)

theorem serverIdle {pc : ServerPc} (hi : ServerIdle P s j pc) : ServerIdle P t j pc := by
  cases pc with
  | found k =>
    obtain ⟨h1, h2, h3⟩ := hi
    exact ⟨h1, h2, fun m hl hm => h.shm2 m hl (hm.trans_le h2) ▸ h3 m hl hm⟩
  | wait =>
    obtain ⟨m, hl, hm, h0⟩ := hi
    exact ⟨m, hl, hm, h.shm2 m hl hm ▸ h0⟩
  | exited => exact fun m hl hm => h.shm2 m hl hm ▸ hi m hl hm
  | compare k => exact hi
  | compareWrite k c => exact hi
  | post => exact hi

theorem serverTurn {pc : ServerPc} (hi : ServerTurn P s j pc) : ServerTurn P t j pc := by
  cases pc with
  | compare k =>
    simp only [ServerTurn, h.rounds] at hi ⊢
    obtain ⟨h1, h2, hm, ha, hg⟩ := hi
    exact ⟨h1, h2, hm, h.answers le_rfl h2 ha, h.guesses le_rfl le_rfl hg⟩
  | compareWrite k c =>
    simp only [ServerTurn, h.rounds] at hi ⊢
    obtain ⟨h1, h2, hm, ha, hg, hc⟩ := hi
    exact ⟨h1, h2, hm, h.answers le_rfl h2.le ha, h.guesses le_rfl le_rfl hg, hc⟩
  | post =>
    simp only [ServerTurn, h.rounds] at hi ⊢
    obtain ⟨h1, hm, ha, hg⟩ := hi
    exact ⟨h1, hm, h.answers le_rfl le_rfl ha, h.guesses le_rfl le_rfl hg⟩
  | found k => exact hi
  | wait => exact hi
  | exited => exact hi

theorem scanned {k : ℕ} (hk : k ≤ P.high j) (hi : Scanned P s j k) : Scanned P t j k := by
  simp only [Scanned, h.rounds] at hi ⊢
  obtain ⟨h1, hm, hl, hg, hg'⟩ := hi
  exact ⟨h1, hm, hl, h.guesses le_rfl hk hg, h.guesses hl le_rfl hg'⟩

theorem clientTurn {pc : ClientPc} (hi : ClientTurn P s j pc) : ClientTurn P t j pc := by
  cases pc with
  | fill k =>
    simp only [ClientTurn, h.rounds] at hi ⊢
    obtain ⟨h1, h2, hr, hg⟩ := hi
    exact ⟨h1, h2, hr, h.guesses le_rfl h2 hg⟩
  | post =>
    simp only [ClientTurn, h.rounds] at hi ⊢
    exact ⟨hi.1, h.guesses le_rfl le_rfl hi.2⟩
  | wait => exact hi
  | scan k flag =>
    simp only [ClientTurn, h.rounds] at hi ⊢
    exact ⟨hi.1, h.scanned hi.1 hi.2.1, hi.2.2⟩
  | incr k =>
    simp only [ClientTurn, h.rounds] at hi ⊢
    exact ⟨hi.1, h.scanned hi.1.le hi.2.1, hi.2.2⟩
  | incrWrite k c =>
    simp only [ClientTurn, h.rounds] at hi ⊢
    exact ⟨hi.1, h.scanned hi.1.le hi.2.1, hi.2.2⟩
  | exited =>
    simp only [ClientTurn, h.rounds] at hi ⊢
    obtain ⟨h1, hm, hn, hg⟩ := hi
    exact ⟨h1, hm, hn, h.guesses le_rfl le_rfl hg⟩

theorem phase (hp : Phase P s j) : Phase P t j := by
  cases hp with
  | client hA hB hI ha hc =>
    exact .client (h.semA ▸ hA) (h.semB ▸ hB) (h.server ▸ h.serverIdle hI)
      (h.rounds ▸ h.answers le_rfl le_rfl ha) (h.client ▸ h.clientTurn hc)
  | posted hw hA hB hI ha hm hg =>
    exact .posted (h.client ▸ hw) (h.semA ▸ hA) (h.semB ▸ hB) (h.server ▸ h.serverIdle hI)
      (h.rounds ▸ h.answers le_rfl le_rfl ha) (h.rounds ▸ hm)
      (h.rounds ▸ h.guesses le_rfl le_rfl hg)
  | server hw hA hB hI =>
    exact .server (h.client ▸ hw) (h.semA ▸ hA) (h.semB ▸ hB) (h.server ▸ h.serverTurn hI)
  | answered hw hA hB hI ha hr hm hg =>
    exact .answered (h.client ▸ hw) (h.semA ▸ hA) (h.semB ▸ hB) (h.server ▸ h.serverIdle hI)
      (h.rounds ▸ h.answers le_rfl le_rfl ha) (h.rounds ▸ hr) (h.rounds ▸ hm)
      (h.rounds ▸ h.guesses le_rfl le_rfl hg)

end SamePair
end Guess
