import Cs345.Guess.Invariant

namespace Guess
variable (P : Session)

def lastRound (i : ℕ) : ℕ := Game.rounds P.secretString (P.low i) (P.high i)

def ServerPc.comparing : ServerPc → Bool
  | .compare _ | .compareWrite _ _ => true
  | _ => false

structure RoundLaw (s : State) (i : ℕ) : Prop where
  compared : s.server i = .post → 1 ≤ s.rounds i ∧ ∀ k, P.low i ≤ k → k < P.high i →
    s.shm1 k = min (P.secretString k) (65 + s.rounds i - 1) ∧
    s.shm2 k = if P.secretString k ≤ 65 + s.rounds i - 1 then 1 else 0
  bounded : s.rounds i ≤ lastRound P i
  comparing : (s.server i).comparing = true → s.rounds i < lastRound P i
  serverLeft : s.server i = .exited → s.rounds i = lastRound P i ∧
    ∀ k, P.low i ≤ k → k < P.high i → s.shm1 k = P.secretString k
  clientLeft : s.client i = .exited → s.rounds i = lastRound P i ∧
    ∀ k, P.low i ≤ k → k < P.high i → s.shm1 k = P.secretString k

variable {P} {s : State} {i : ℕ}

theorem More.mono {r r' : ℕ} (h : More P i r) (hr : r' ≤ r) : More P i r' := by
  obtain ⟨k, hl, hh, hk⟩ := h
  exact ⟨k, hl, hh, by omega⟩

theorem lt_lastRound_iff (hi : i < P.M) (hne : P.low i < P.high i) {r : ℕ} :
    r < lastRound P i ↔ More P i r :=
  Game.lt_rounds_iff hne (fun _ _ hk => P.letter hi hk)

theorem Phase.progress (hp : Phase P s i) : s.rounds i = 0 ∨ More P i (s.rounds i - 1) := by
  have back {r : ℕ} (h : r = 0 ∨ More P i r) : r = 0 ∨ More P i (r - 1) :=
    h.imp_right (fun h => h.mono (Nat.sub_le r 1))
  cases hp with
  | client _ _ _ _ hc =>
    cases hpc : s.client i with
    | fill k => rw [hpc] at hc; exact .inl hc.2.2.1
    | post => rw [hpc] at hc; exact back hc.1
    | wait => exact absurd hpc (not_wait_of_turn hc)
    | scan k flag => rw [hpc] at hc; exact .inr hc.2.1.2.1
    | incr k => rw [hpc] at hc; exact .inr hc.2.1.2.1
    | incrWrite k c => rw [hpc] at hc; exact .inr hc.2.1.2.1
    | exited => rw [hpc] at hc; exact .inr hc.2.1
  | posted _ _ _ _ _ hmore => exact back hmore
  | server _ _ _ hT =>
    cases hpc : s.server i <;> rw [hpc] at hT
    case compare => exact back (.inr hT.2.2.1)
    case compareWrite => exact back (.inr hT.2.2.1)
    case post => exact .inr hT.2.1
    all_goals exact hT.elim
  | answered _ _ _ _ _ _ hmore => exact .inr hmore

theorem guess_done {r k : ℕ} (hno : ¬ More P i r) (hl : P.low i ≤ k) (hh : k < P.high i) :
    Game.guess (P.secretString k) r = P.secretString k ∧
      Game.guess (P.secretString k) (r + 1) = P.secretString k := by
  have hle : P.secretString k ≤ 64 + r := by
    by_contra hlt
    exact hno ⟨k, hl, hh, by omega⟩
  exact ⟨Game.guess_of_le hle, Game.guess_of_le (by omega)⟩

theorem Phase.secret_of_done (hp : Phase P s i) (h1 : 1 ≤ s.rounds i)
    (hno : ¬ More P i (s.rounds i)) :
    ∀ k, P.low i ≤ k → k < P.high i → s.shm1 k = P.secretString k := by
  have now (hg : Guesses P s (s.rounds i) (P.low i) (P.high i)) :
      ∀ k, P.low i ≤ k → k < P.high i → s.shm1 k = P.secretString k :=
    fun k hl hh => (hg k hl hh).trans (guess_done hno hl hh).1
  have next (hg : Guesses P s (s.rounds i + 1) (P.low i) (P.high i)) :
      ∀ k, P.low i ≤ k → k < P.high i → s.shm1 k = P.secretString k :=
    fun k hl hh => (hg k hl hh).trans (guess_done hno hl hh).2
  have scan {m : ℕ} (hs : Scanned P s i m) :
      ∀ k, P.low i ≤ k → k < P.high i → s.shm1 k = P.secretString k := by
    intro k hl hh
    rcases Nat.lt_or_ge k m with hkm | hkm
    · exact (hs.2.2.2.1 k hl hkm).trans (guess_done hno hl hh).2
    · exact (hs.2.2.2.2 k hkm hh).trans (guess_done hno hl hh).1
  cases hp with
  | client _ _ _ _ hc =>
    cases hpc : s.client i with
    | fill k => rw [hpc] at hc; exact absurd hc.2.2.1 (by omega)
    | post => rw [hpc] at hc; exact next hc.2
    | wait => exact absurd hpc (not_wait_of_turn hc)
    | scan k flag => rw [hpc] at hc; exact scan hc.2.1
    | incr k => rw [hpc] at hc; exact scan hc.2.1
    | incrWrite k c => rw [hpc] at hc; exact scan hc.2.1
    | exited => rw [hpc] at hc; exact now hc.2.2.2
  | posted _ _ _ _ _ _ hg => exact next hg
  | server _ _ _ hT =>
    cases hpc : s.server i <;> rw [hpc] at hT
    case compare => exact next hT.2.2.2.2
    case compareWrite => exact next hT.2.2.2.2.1
    case post => exact now hT.2.2.2
    all_goals exact hT.elim
  | answered _ _ _ _ _ _ _ hg => exact now hg

theorem Phase.no_more_of_exited (hp : Phase P s i)
    (h : s.server i = .exited ∨ s.client i = .exited) : ¬ More P i (s.rounds i) := by
  rcases h with h | h
  · cases hp with
    | server _ _ _ hT => rw [h] at hT; exact hT.elim
    | client _ _ hI ha => rw [h] at hI; exact not_more_of_ones ha hI
    | posted _ _ _ hI ha => rw [h] at hI; exact not_more_of_ones ha hI
    | answered _ _ _ hI ha => rw [h] at hI; exact not_more_of_ones ha hI
  · obtain ⟨-, -, -, -, hc⟩ := hp.of_client_turn (by simp [h])
    rw [h] at hc
    exact hc.2.2.1

theorem Phase.rounds_le (hp : Phase P s i) (hi : i < P.M) (hne : P.low i < P.high i) :
    s.rounds i ≤ lastRound P i := by
  rcases hp.progress with h | h
  · omega
  · have := (lt_lastRound_iff hi hne).mpr h
    omega

theorem Phase.left (hp : Phase P s i) (hi : i < P.M) (hne : P.low i < P.high i)
    (h : s.server i = .exited ∨ s.client i = .exited) :
    s.rounds i = lastRound P i ∧
      ∀ k, P.low i ≤ k → k < P.high i → s.shm1 k = P.secretString k := by
  have hno := hp.no_more_of_exited h
  have heq : s.rounds i = lastRound P i :=
    le_antisymm (hp.rounds_le hi hne) (not_lt.mp (fun hlt => hno ((lt_lastRound_iff hi hne).mp hlt)))
  have hpos : 1 ≤ lastRound P i := by simp [lastRound, Game.rounds]
  exact ⟨heq, hp.secret_of_done (by omega) hno⟩

theorem Phase.compared (hp : Phase P s i) (hpc : s.server i = .post) :
    1 ≤ s.rounds i ∧ Answers P s (s.rounds i) (P.low i) (P.high i) ∧
      Guesses P s (s.rounds i) (P.low i) (P.high i) := by
  have hn : ¬ ServerIdle P s i (s.server i) := by rw [hpc]; exact id
  obtain ⟨-, -, -, hT⟩ := hp.of_server_turn hn
  rw [hpc] at hT
  exact ⟨hT.1, hT.2.2⟩

theorem compared_refines_play (hs : (protocol P).Reachable s) (hi : i < P.M)
    (hpc : s.server i = .post) {k : ℕ} (hl : P.low i ≤ k) (hh : k < P.high i) :
    (s.shm1 k, s.shm2 k) = Game.play (P.secretString k) (s.rounds i) := by
  obtain ⟨-, ha, hg⟩ := (phase_reachable hs i hi).compared hpc
  rw [Game.play_eq (P.letter hi hh), ← hg k hl hh, ← ha k hl hh]

theorem round_law (P : Session) (s : State) (hs : (protocol P).Reachable s) (i : ℕ)
    (hi : i < P.M) (hne : P.low i < P.high i) : RoundLaw P s i := by
  have hp := phase_reachable hs i hi
  refine ⟨fun hpc => ?_, hp.rounds_le hi hne, fun hcmp => ?_, fun h => ?_, fun h => ?_⟩
  · obtain ⟨h1, ha, hg⟩ := hp.compared hpc
    have hr : 65 + s.rounds i - 1 = 64 + s.rounds i := by omega
    refine ⟨h1, fun k hl hh => ?_⟩
    rw [hr]
    exact ⟨hg k hl hh, ha k hl hh⟩
  · have hn : ¬ ServerIdle P s i (s.server i) := by
      intro hI
      cases hpc : s.server i <;> simp [hpc, ServerPc.comparing] at hcmp <;> simp [hpc, ServerIdle] at hI
    obtain ⟨-, -, -, hT⟩ := hp.of_server_turn hn
    rw [lt_lastRound_iff hi hne]
    cases hpc : s.server i <;> simp [hpc, ServerPc.comparing] at hcmp <;> rw [hpc] at hT
    · exact hT.2.2.1
    · exact hT.2.2.1
  · exact hp.left hi hne (.inl h)
  · exact hp.left hi hne (.inr h)

def sample : Session where
  N := 4
  M := 2
  secretString k := [65, 98, 67, 122].getD k 65
  N_pos := by decide
  M_pos := Nat.zero_lt_two
  letters := by unfold IsLetter; decide

def twoLetters : Session where
  N := 2
  M := 1
  secretString k := [66, 65].getD k 65
  N_pos := by decide
  M_pos := Nat.one_pos
  letters := by unfold IsLetter; decide

def firstTurn (i : ℕ) : List Actor :=
  List.replicate 4 (.client i) ++ List.replicate 7 (.server i)

def twoRounds : List Actor :=
  firstTurn 0 ++ [.server 0] ++ List.replicate 7 (.client 0) ++ List.replicate 11 (.server 0) ++
    List.replicate 4 (.client 0)

theorem round_law_sample :
    (∃ s, (protocol sample).Reachable s ∧ s.server 1 = .post ∧ RoundLaw sample s 1) ∧
    ∃ s, (protocol twoLetters).Reachable s ∧ s.server 0 = .exited ∧ s.client 0 = .exited ∧
      RoundLaw twoLetters s 0 := by
  constructor
  · obtain ⟨s, hs, h⟩ := Machine.exists_of_foldlM (firstTurn 1)
      (fun s : State => decide (s.server 1 = .post)) (reachable_start sample) (by decide)
    exact ⟨s, hs, of_decide_eq_true h, round_law sample s hs 1 (by decide) (by decide)⟩
  · obtain ⟨s, hs, h⟩ := Machine.exists_of_foldlM twoRounds
      (fun s : State => decide (s.server 0 = .exited ∧ s.client 0 = .exited))
      (reachable_start twoLetters) (by decide)
    obtain ⟨hserver, hclient⟩ := of_decide_eq_true h
    exact ⟨s, hs, hserver, hclient, round_law twoLetters s hs 0 (by decide) (by decide)⟩

end Guess
