import Cs345.Guess.Rounds
import Mathlib.Algebra.Order.BigOperators.Group.Finset

namespace Guess
variable (P : Session) (s : State) (i : ℕ)

def span : ℕ := P.high i - P.low i

def serverWork : ServerPc → ℕ
  | .post => 3 * span P i + 4
  | .found k => 2 * span P i + 3 + (P.high i - k)
  | .wait => 2 * span P i + 2
  | .compare k => 2 * (P.high i - k) + 1
  | .compareWrite k _ => 2 * (P.high i - k)
  | .exited => 0

def answerReady : Bool := decide (0 < s.sem (i + P.M) ∨ s.server i = .post)

def clientWork : ClientPc → ℕ
  | .fill k => P.high i - k + 2
  | .post => 1
  | .wait => if answerReady P s i then 3 * span P i + 3 else 0
  | .scan k _ => 3 * (P.high i - k) + 2
  | .incr k => 3 * (P.high i - k) + 1
  | .incrWrite k _ => 3 * (P.high i - k)
  | .exited => 0

def pairWork : ℕ :=
  (6 * span P i + 8) * (lastRound P i - s.rounds i) +
    (serverWork P i (s.server i) + clientWork P s i (s.client i))

def totalWork : ℕ :=
  (∑ i ∈ Finset.range P.M, pairWork P s i) +
    ((if s.reported then 0 else 1) + (if s.guessed then 0 else 1))

variable {P s i} {t : State}

theorem clientWork_ready (h : (0 < t.sem (i + P.M) ∨ t.server i = .post) ↔
    (0 < s.sem (i + P.M) ∨ s.server i = .post)) (pc : ClientPc) :
    clientWork P t i pc = clientWork P s i pc := by
  have hr : answerReady P t i = answerReady P s i := decide_eq_decide.mpr h
  cases pc <;> simp only [clientWork, hr]

theorem pairWork_same (h : SamePair P s t i) : pairWork P t i = pairWork P s i := by
  have hc := clientWork_ready (P := P) (s := s) (t := t) (i := i)
    (by rw [h.semB, h.server]) (s.client i)
  simp only [pairWork, h.server, h.client, h.rounds, hc]

theorem finish_work {k : ℕ} (hp : Phase P s i) (hi : i < P.M)
    (hpc : s.server i = .compare k) :
    pairWork P ((s.countRound i).goServer i .post) i < pairWork P s i := by
  have hn : ¬ ServerIdle P s i (s.server i) := by rw [hpc]; exact id
  obtain ⟨hw, -, hB, hT⟩ := hp.of_server_turn hn
  rw [hpc] at hT
  have hmore := hT.2.2.1
  have hne : P.low i < P.high i := by
    obtain ⟨m, h1, h2, -⟩ := hmore
    omega
  have hlt : s.rounds i < lastRound P i := (lt_lastRound_iff hi hne).mpr hmore
  have hround : lastRound P i - s.rounds i = lastRound P i - (s.rounds i + 1) + 1 := by omega
  simp only [pairWork, State.goServer, State.countRound, Function.update_self, hw, hpc, hround,
    Nat.mul_succ, serverWork, clientWork, answerReady, hB]
  simp
  omega

theorem pairWork_server (hr : t.rounds i = s.rounds i) (hc : t.client i = s.client i)
    (hready : (0 < t.sem (i + P.M) ∨ t.server i = .post) ↔
      (0 < s.sem (i + P.M) ∨ s.server i = .post))
    (hlt : serverWork P i (t.server i) < serverWork P i (s.server i)) :
    pairWork P t i < pairWork P s i := by
  simp only [pairWork, hr, hc, clientWork_ready hready]
  omega

theorem server_work (hp : Phase P s i) (hi : i < P.M) (hm : ServerMove P s i t) :
    pairWork P t i < pairWork P s i := by
  have hne : i + P.M ≠ i := by have := P.M_pos; omega
  cases hm with
  | foundZero hpc hk h0 =>
    refine pairWork_server rfl rfl (by simp [hpc]) ?_
    simp only [State.goServer, Function.update_self, hpc, serverWork]
    omega
  | foundNext hpc hk h0 =>
    refine pairWork_server rfl rfl (by simp [hpc]) ?_
    simp only [State.goServer, Function.update_self, hpc, serverWork]
    omega
  | foundAll hpc hk =>
    refine pairWork_server rfl rfl (by simp [hpc]) ?_
    simp only [State.goServer, Function.update_self, hpc, serverWork]
    omega
  | take hpc h0 =>
    refine pairWork_server rfl rfl (by simp [hpc, Function.update_of_ne hne]) ?_
    simp only [State.goServer, State.semWait, Function.update_self, hpc, serverWork, span]
    omega
  | read hpc hk =>
    refine pairWork_server rfl rfl (by simp [hpc]) ?_
    simp only [State.goServer, Function.update_self, hpc, serverWork]
    omega
  | @answer k c hpc =>
    have hn : ¬ ServerIdle P s i (s.server i) := by rw [hpc]; exact id
    have hT := (hp.of_server_turn hn).2.2.2
    rw [hpc] at hT
    have hk := hT.2.1
    refine pairWork_server rfl rfl (by simp [hpc]) ?_
    simp only [State.goServer, State.setShm2, Function.update_self, hpc, serverWork]
    omega
  | finish hpc hk => exact finish_work hp hi hpc
  | post hpc =>
    refine pairWork_server rfl rfl (by simp [hpc]) ?_
    simp only [State.goServer, State.semPost, Function.update_self, hpc, serverWork, span]
    omega

theorem pairWork_client (hr : t.rounds i = s.rounds i) (hs : t.server i = s.server i)
    (hlt : clientWork P t i (t.client i) < clientWork P s i (s.client i)) :
    pairWork P t i < pairWork P s i := by
  simp only [pairWork, hr, hs]
  omega

theorem client_work (hp : Phase P s i) (hm : ClientMove P s i t) :
    pairWork P t i < pairWork P s i := by
  have hne : i + P.M ≠ i := by have := P.M_pos; omega
  cases hm with
  | fill hpc hk =>
    refine pairWork_client rfl rfl ?_
    simp only [State.goClient, Function.update_self, hpc, clientWork]
    omega
  | filled hpc hk =>
    refine pairWork_client rfl rfl ?_
    simp only [State.goClient, Function.update_self, hpc, clientWork]
    omega
  | post hpc =>
    obtain ⟨-, hB, hI, -, -⟩ := hp.of_client_turn (by simp [hpc])
    have hidle : s.server i ≠ .post := by
      intro h
      rw [h] at hI
      exact hI
    refine pairWork_client rfl rfl ?_
    simp [State.goClient, State.semPost, hpc, clientWork, answerReady, Function.update_of_ne hne,
      hB, hidle]
  | take hpc h0 =>
    refine pairWork_client rfl rfl ?_
    simp [State.goClient, State.semWait, hpc, clientWork, answerReady, h0, span]
  | wrong hpc hk h0 =>
    refine pairWork_client rfl rfl ?_
    simp only [State.goClient, Function.update_self, hpc, clientWork]
    omega
  | right hpc hk h0 =>
    refine pairWork_client rfl rfl ?_
    simp only [State.goClient, Function.update_self, hpc, clientWork]
    omega
  | again hpc hk =>
    refine pairWork_client rfl rfl ?_
    simp only [State.goClient, Function.update_self, hpc, clientWork]
    omega
  | leave hpc hk =>
    refine pairWork_client rfl rfl ?_
    simp only [State.goClient, Function.update_self, hpc, clientWork]
    omega
  | incr hpc =>
    refine pairWork_client rfl rfl ?_
    simp only [State.goClient, Function.update_self, hpc, clientWork]
    omega
  | incrWrite hpc =>
    obtain ⟨-, -, -, -, hc⟩ := hp.of_client_turn (by simp [hpc])
    rw [hpc] at hc
    have hk := hc.1
    refine pairWork_client rfl rfl ?_
    simp only [State.goClient, Function.update_self, hpc, clientWork]
    omega

theorem totalWork_lt (hi : i < P.M) (hlt : pairWork P t i < pairWork P s i)
    (hsame : ∀ j < P.M, j ≠ i → SamePair P s t j) (hr : t.reported = s.reported)
    (hg : t.guessed = s.guessed) : totalWork P t < totalWork P s := by
  have hsum : ∑ j ∈ Finset.range P.M, pairWork P t j < ∑ j ∈ Finset.range P.M, pairWork P s j := by
    apply Finset.sum_lt_sum
    · intro j hj
      by_cases hij : j = i
      · subst hij; exact hlt.le
      · exact (pairWork_same (hsame j (Finset.mem_range.mp hj) hij)).le
    · exact ⟨i, Finset.mem_range.mpr hi, hlt⟩
  simp only [totalWork, hr, hg]
  omega

theorem work_decreases (hp : ∀ i < P.M, Phase P s i) (hm : Move P s t) :
    totalWork P t < totalWork P s := by
  cases hm with
  | @server i t hi hm =>
    refine totalWork_lt hi (server_work (hp i hi) hi hm)
      (fun j hj hij => server_frame hi hj hij (hp i hi) hm) ?_ ?_
    · cases hm <;> rfl
    · cases hm <;> rfl
  | @client i t hi hm =>
    refine totalWork_lt hi (client_work (hp i hi) hm)
      (fun j hj hij => client_frame hi hj hij (hp i hi) hm) ?_ ?_
    · cases hm <;> rfl
    · cases hm <;> rfl
  | report h =>
    change (∑ i ∈ Finset.range P.M, pairWork P s i) + _ < totalWork P s
    simp [totalWork, h]
  | guess h =>
    change (∑ i ∈ Finset.range P.M, pairWork P s i) + _ < totalWork P s
    simp [totalWork, h]

theorem stuck_reachable (P : Session) : ∃ s, (protocol P).Reachable s ∧ (protocol P).Stuck s :=
  Machine.Reachable.stuck_exists (reachable_start P) (totalWork P)
    (fun _ _ _ hs h => work_decreases (phase_reachable hs) (protocol_move h))

end Guess
