import Cs345.Guess.Turns
import Cs345.Guess.Termination

namespace Guess
variable {P : Session} {s t : State} {i : ℕ}

theorem serverStep_none (h : serverStep P s i = none) :
    s.server i = .exited ∨ (s.server i = .wait ∧ s.sem i = 0) := by
  simp only [serverStep] at h
  split at h
  next k hpc => split_ifs at h
  next hpc => split_ifs at h with h0; exact .inr ⟨hpc, by omega⟩
  next k hpc => split_ifs at h
  next => cases h
  next => cases h
  next hpc => exact .inl hpc

theorem clientStep_none (h : clientStep P s i = none) :
    s.client i = .exited ∨ (s.client i = .wait ∧ s.sem (i + P.M) = 0) := by
  simp only [clientStep] at h
  split at h
  next k hpc => split_ifs at h
  next => cases h
  next hpc => split_ifs at h with h0; exact .inr ⟨hpc, by omega⟩
  next k flag hpc => split_ifs at h
  next => cases h
  next => cases h
  next hpc => exact .inl hpc

theorem more_zero (hi : i < P.M) (hne : P.low i < P.high i) : More P i 0 := by
  have := Game.letter_bounds (P.letter hi hne)
  exact ⟨P.low i, le_rfl, hne, by omega⟩

theorem not_wait_of_no_more (ha : Answers P s (s.rounds i) (P.low i) (P.high i))
    (hI : ServerIdle P s i (s.server i)) (hno : ¬ More P i (s.rounds i)) : s.server i ≠ .wait := by
  intro hpc
  rw [hpc] at hI
  exact hno (more_of_wait ha hI)

theorem Phase.blocked (hp : Phase P s i) (hi : i < P.M) (hS : serverStep P s i = none)
    (hC : clientStep P s i = none) : s.server i = .exited ∧
      (s.client i = .exited ∨ s.client i = .wait ∧ ¬ P.low i < P.high i) := by
  have hS' := serverStep_none hS
  have hC' := clientStep_none hC
  cases hp with
  | client hA hB hI ha hc =>
    rcases hC' with hx | ⟨hw, -⟩
    · rw [hx] at hc
      exact ⟨hS'.resolve_right (fun h => not_wait_of_no_more ha hI hc.2.2.1 h.1), .inl hx⟩
    · exact absurd hw (not_wait_of_turn hc)
  | posted hw hA hB hI ha hmore hg =>
    have hx : s.server i = .exited := hS'.resolve_right (fun h => by omega)
    refine ⟨hx, .inr ⟨hw, fun hne => ?_⟩⟩
    rw [hx] at hI
    have hno := not_more_of_ones ha hI
    rcases hmore with h0 | hmore
    · exact hno (h0 ▸ more_zero hi hne)
    · exact hno hmore
  | server hw hA hB hT =>
    rcases hS' with hx | ⟨hx, -⟩
    · rw [hx] at hT; exact hT.elim
    · rw [hx] at hT; exact hT.elim
  | answered hw hA hB hI ha hr hmore hg =>
    rcases hC' with hx | ⟨-, h0⟩
    · rw [hw] at hx; cases hx
    · omega

def NoDeadlock (P : Session) : Prop :=
  ∀ s, (protocol P).Reachable s →
    (∃ i < P.M, s.server i ≠ .exited ∨ s.client i ≠ .exited) →
    ∃ a : Actor, a.isThread = true ∧ (protocol P).Enabled s a

theorem blocked_of_disabled (hs : (protocol P).Reachable s) (hi : i < P.M)
    (hS : ¬ (protocol P).Enabled s (.server i)) (hC : ¬ (protocol P).Enabled s (.client i)) :
    s.server i = .exited ∧ (s.client i = .exited ∨ s.client i = .wait ∧ ¬ P.low i < P.high i) := by
  refine (phase_reachable hs i hi).blocked hi ?_ ?_
  · by_contra hne
    obtain ⟨t, ht⟩ := Option.ne_none_iff_exists'.mp hne
    exact hS ⟨t, (if_pos hi).trans ht⟩
  · by_contra hne
    obtain ⟨t, ht⟩ := Option.ne_none_iff_exists'.mp hne
    exact hC ⟨t, (if_pos hi).trans ht⟩

theorem no_deadlock_of_le (h : P.M ≤ P.N) : NoDeadlock P := by
  rintro s hs ⟨i, hi, hun⟩
  by_contra hno
  have hdis (a : Actor) (ha : a.isThread = true) : ¬ (protocol P).Enabled s a :=
    fun hen => hno ⟨a, ha, hen⟩
  obtain ⟨hx, hc | hc⟩ := blocked_of_disabled hs hi (hdis _ rfl) (hdis _ rfl)
  · exact hun.elim (fun h => h hx) (fun h => h hc)
  · exact hc.2 (P.low_lt_high_iff.mpr h)

theorem client_stays (hs : (protocol P).Reachable s) (hi : i < P.M) (hempty : ¬ P.low i < P.high i) :
    s.client i ≠ .exited := by
  intro hx
  obtain ⟨-, -, -, -, hc⟩ := (phase_reachable hs i hi).of_client_turn (by simp [hx])
  rw [hx] at hc
  obtain ⟨k, hl, hh, -⟩ := hc.2.1
  omega

theorem deadlock_of_lt (h : P.N < P.M) : ∃ s, (protocol P).Reachable s ∧
    s.client 0 ≠ .exited ∧ ∀ a, ¬ (protocol P).Enabled s a := by
  obtain ⟨s, hs, hstuck⟩ := stuck_reachable P
  have hempty : ¬ P.low 0 < P.high 0 := by rw [P.low_lt_high_iff]; omega
  exact ⟨s, hs, client_stays hs P.M_pos hempty, hstuck⟩

theorem not_no_deadlock (h : P.N < P.M) : ¬ NoDeadlock P := by
  intro hnd
  obtain ⟨s, hs, hx, hstuck⟩ := deadlock_of_lt h
  obtain ⟨a, -, hen⟩ := hnd s hs ⟨0, P.M_pos, .inr hx⟩
  exact hstuck a hen

theorem no_deadlock_iff (P : Session) : NoDeadlock P ↔ P.M ≤ P.N :=
  ⟨fun h => not_lt.mp (fun hlt => not_no_deadlock hlt h), no_deadlock_of_le⟩

def moreThreads : Session := { oneLetter with M := 2, M_pos := Nat.zero_lt_two }

theorem more_threads_deadlock : ¬ NoDeadlock moreThreads := not_no_deadlock (by decide)

def EndToEnd (P : Session) : Prop :=
  ∀ s, (protocol P).Reachable s →
    (s.guessed = true → ∀ k < P.N, s.shm1 k = P.secretString k) ∧
    (s.reported = true → ∀ k < P.N, s.shm2 k = 1)

structure Joined (P : Session) (s : State) : Prop where
  servers : s.reported = true → ∀ i < P.M, s.server i = .exited
  clients : s.guessed = true → ∀ i < P.M, s.client i = .exited

theorem joined_move (hj : Joined P s) (hm : Move P s t) : Joined P t := by
  cases hm with
  | @server i t hi hm =>
    have hx : s.server i ≠ .exited := by cases hm <;> simp_all
    have hr : t.reported = s.reported := by cases hm <;> rfl
    have hg : t.guessed = s.guessed := by cases hm <;> rfl
    have hc : t.client = s.client := by cases hm <;> rfl
    exact ⟨fun h => absurd (hj.servers (hr ▸ h) i hi) hx, fun h => hc ▸ hj.clients (hg ▸ h)⟩
  | @client i t hi hm =>
    have hx : s.client i ≠ .exited := by cases hm <;> simp_all
    have hr : t.reported = s.reported := by cases hm <;> rfl
    have hg : t.guessed = s.guessed := by cases hm <;> rfl
    have hc : t.server = s.server := by cases hm <;> rfl
    exact ⟨fun h => hc ▸ hj.servers (hr ▸ h), fun h => absurd (hj.clients (hg ▸ h) i hi) hx⟩
  | report _ h => exact ⟨fun _ => h, hj.clients⟩
  | guess _ h => exact ⟨hj.servers, fun _ => h⟩

theorem joined_reachable (hs : (protocol P).Reachable s) : Joined P s :=
  hs.invariant (fun s h => by cases h; exact ⟨nofun, nofun⟩)
    (fun _ _ _ _ hj h => joined_move hj (protocol_move h))

def Uncovered (P : Session) (k : ℕ) : Prop := ∀ i < P.M, ¬ (P.low i ≤ k ∧ k < P.high i)

theorem untouched_move (hp : ∀ i < P.M, Phase P s i) (hm : Move P s t) {k : ℕ}
    (hk : Uncovered P k) : t.shm1 k = s.shm1 k ∧ t.shm2 k = s.shm2 k := by
  cases hm with
  | @server i t hi hm =>
    cases hm with
    | @answer m c hpc =>
      have hr := (hp i hi).own_range (a := ⟨.shm2, m, true⟩) (.inl (by simp [serverAccess, hpc]))
      exact ⟨rfl, Function.update_of_ne (fun (h : k = m) => hk i hi (by rw [h]; exact hr)) _ _⟩
    | _ => exact ⟨rfl, rfl⟩
  | @client i t hi hm =>
    cases hm with
    | @fill m hpc hm =>
      have hr := (hp i hi).own_range (a := ⟨.shm1, m, true⟩) (.inr (by simp [clientAccess, hpc, hm]))
      exact ⟨Function.update_of_ne (fun (h : k = m) => hk i hi (by rw [h]; exact hr)) _ _, rfl⟩
    | @incrWrite m c hpc =>
      have hr := (hp i hi).own_range (a := ⟨.shm1, m, true⟩) (.inr (by simp [clientAccess, hpc]))
      exact ⟨Function.update_of_ne (fun (h : k = m) => hk i hi (by rw [h]; exact hr)) _ _, rfl⟩
    | _ => exact ⟨rfl, rfl⟩
  | report => exact ⟨rfl, rfl⟩
  | guess => exact ⟨rfl, rfl⟩

theorem untouched (hs : (protocol P).Reachable s) {k : ℕ} (hk : Uncovered P k) :
    s.shm1 k = 48 ∧ s.shm2 k = 0 :=
  hs.invariant (I := fun s => s.shm1 k = 48 ∧ s.shm2 k = 0)
    (fun s h => by cases h; exact ⟨rfl, rfl⟩)
    (fun s l t hr hI h => by
      obtain ⟨h1, h2⟩ := untouched_move (phase_reachable hr) (protocol_move h) hk
      exact ⟨h1.trans hI.1, h2.trans hI.2⟩)

theorem exited_answers (hp : Phase P s i) (hx : s.server i = .exited) {k : ℕ}
    (hl : P.low i ≤ k) (hh : k < P.high i) : s.shm2 k = 1 := by
  have hno := hp.no_more_of_exited (.inl hx)
  have hone (ha : Answers P s (s.rounds i) (P.low i) (P.high i)) : s.shm2 k = 1 := by
    rw [ha k hl hh, Game.feedback_eq_one]
    by_contra hlt
    exact hno ⟨k, hl, hh, by omega⟩
  cases hp with
  | client _ _ _ ha => exact hone ha
  | posted _ _ _ _ ha => exact hone ha
  | server _ _ _ hT => rw [hx] at hT; exact hT.elim
  | answered _ _ _ _ ha => exact hone ha

theorem covered_of_dvd (h : P.M ∣ P.N) {k : ℕ} (hk : k < P.N) :
    ∃ i < P.M, P.low i ≤ k ∧ k < P.high i := by
  have hq : P.M * (P.N / P.M) = P.N := Nat.mul_div_cancel' h
  have hpos : 0 < P.N / P.M := Nat.div_pos (Nat.le_of_dvd P.N_pos h) P.M_pos
  refine ⟨k / (P.N / P.M), ?_, Nat.div_mul_le_self _ _, ?_⟩
  · rw [Nat.div_lt_iff_lt_mul hpos, hq]
    exact hk
  · rw [Session.high, Nat.succ_mul]
    exact Nat.lt_div_mul_add hpos

theorem end_to_end_of_dvd (h : P.M ∣ P.N) : EndToEnd P := by
  intro s hs
  have hj := joined_reachable hs
  constructor
  · intro hg k hk
    obtain ⟨i, hi, hl, hh⟩ := covered_of_dvd h hk
    exact ((phase_reachable hs i hi).left hi (by omega) (.inr (hj.clients hg i hi))).2 k hl hh
  · intro hr k hk
    obtain ⟨i, hi, hl, hh⟩ := covered_of_dvd h hk
    exact exited_answers (phase_reachable hs i hi) (hj.servers hr i hi) hl hh

theorem uncovered_of_not_dvd (h : ¬ P.M ∣ P.N) : Uncovered P (P.N - 1) := by
  rintro i hi ⟨-, hh⟩
  have hle : P.high i ≤ P.M * (P.N / P.M) := Nat.mul_le_mul_right _ hi
  have hlt : P.M * (P.N / P.M) ≠ P.N := fun he => h ⟨_, he.symm⟩
  have := Nat.mul_div_le P.N P.M
  have := P.N_pos
  omega

theorem reported_reachable (P : Session) : ∃ s, (protocol P).Reachable s ∧ s.reported = true ∧
    (P.M ≤ P.N → s.guessed = true) := by
  obtain ⟨s, hs, hstuck⟩ := stuck_reachable P
  have hb (i : ℕ) (hi : i < P.M) := blocked_of_disabled hs hi (hstuck _) (hstuck _)
  refine ⟨s, hs, ?_, fun hle => ?_⟩
  · by_contra hr
    exact hstuck .serverMain ⟨_, if_pos ⟨by simpa using hr, fun i hi => (hb i hi).1⟩⟩
  · by_contra hg
    refine hstuck .clientMain ⟨_, if_pos ⟨by simpa using hg, fun i hi => ?_⟩⟩
    exact (hb i hi).2.resolve_right (fun h => h.2 (P.low_lt_high_iff.mpr hle))

theorem uncovered_report (h : ¬ P.M ∣ P.N) : ∃ s, (protocol P).Reachable s ∧
    s.reported = true ∧ s.shm2 (P.N - 1) = 0 ∧
    (P.M ≤ P.N → s.guessed = true ∧ s.shm1 (P.N - 1) ≠ P.secretString (P.N - 1)) := by
  obtain ⟨s, hs, hr, hg⟩ := reported_reachable P
  obtain ⟨h1, h2⟩ := untouched hs (uncovered_of_not_dvd h)
  have := P.N_pos
  have hc := Game.letter_bounds (P.letters (P.N - 1) (by omega))
  exact ⟨s, hs, hr, h2, fun hle => ⟨hg hle, by omega⟩⟩

theorem not_end_to_end (h : ¬ P.M ∣ P.N) : ¬ EndToEnd P := by
  intro he
  obtain ⟨s, hs, hr, h0, -⟩ := uncovered_report h
  have := (he s hs).2 hr (P.N - 1) (Nat.sub_lt P.N_pos one_pos)
  omega

theorem end_to_end_iff (P : Session) : EndToEnd P ↔ P.M ∣ P.N :=
  ⟨fun h => not_not.mp (fun hn => not_end_to_end hn h), end_to_end_of_dvd⟩

def threeByTwo : Session where
  N := 3
  M := 2
  secretString k := [65, 98, 67].getD k 65
  N_pos := by omega
  M_pos := Nat.zero_lt_two
  letters := by unfold IsLetter; decide

theorem three_by_two_unguessed : ¬ EndToEnd threeByTwo ∧
    ∃ s, (protocol threeByTwo).Reachable s ∧ s.reported = true ∧ s.guessed = true ∧
      s.shm2 2 = 0 ∧ s.shm1 2 ≠ threeByTwo.secretString 2 := by
  have hnd : ¬ threeByTwo.M ∣ threeByTwo.N := by decide
  obtain ⟨s, hs, hr, h0, hg⟩ := uncovered_report hnd
  exact ⟨not_end_to_end hnd, s, hs, hr, (hg (by decide)).1, h0, (hg (by decide)).2⟩

end Guess
