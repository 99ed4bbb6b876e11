import Cs345.Guess.Phase

namespace Guess
variable {P : Session} {s t : State} {i : ℕ}

theorem idle_move (hI : ServerIdle P s i (s.server i)) (hm : ServerMove P s i t) :
    (∃ pc, t = s.goServer i pc ∧ ServerIdle P s i pc) ∨
    (s.server i = .wait ∧ 0 < s.sem i ∧ t = (s.semWait i).goServer i (.compare (P.low i))) := by
  cases hm with
  | foundZero hpc hk h0 =>
    rw [hpc] at hI
    exact .inl ⟨_, rfl, _, hI.1, hk, h0⟩
  | foundNext hpc hk h0 =>
    rw [hpc] at hI
    obtain ⟨h1, h2, h3⟩ := hI
    refine .inl ⟨_, rfl, by omega, hk, ?_⟩
    intro j hl hj
    rcases Nat.lt_succ_iff_lt_or_eq.mp hj with hj | rfl
    · exact h3 j hl hj
    · exact h0
  | foundAll hpc hk =>
    rw [hpc] at hI
    exact .inl ⟨_, rfl, fun j hl hj => hI.2.2 j hl (hj.trans_le hk)⟩
  | take hpc h0 => exact .inr ⟨hpc, h0, rfl⟩
  | read hpc hk => rw [hpc] at hI; exact hI.elim
  | answer hpc => rw [hpc] at hI; exact hI.elim
  | finish hpc hk => rw [hpc] at hI; exact hI.elim
  | post hpc => rw [hpc] at hI; exact hI.elim

theorem idle_goServer {pc : ServerPc} (hI : ServerIdle P s i pc) :
    ServerIdle P (s.goServer i pc) i ((s.goServer i pc).server i) := by
  simp only [State.goServer, Function.update_self]
  exact hI

theorem more_of_wait (ha : Answers P s (s.rounds i) (P.low i) (P.high i))
    (hI : ServerIdle P s i .wait) : More P i (s.rounds i) := by
  obtain ⟨k, hl, hh, h0⟩ := hI
  exact more_of_zero ha hl hh h0

theorem turn_move (hw : s.client i = .wait) (hA : s.sem i = 0)
    (hB : s.sem (i + P.M) = 0) (hT : ServerTurn P s i (s.server i)) (hm : ServerMove P s i t) :
    Phase P t i := by
  have hne : i ≠ i + P.M := by have := P.M_pos; omega
  cases hm with
  | foundZero hpc hk h0 => rw [hpc] at hT; exact hT.elim
  | foundNext hpc hk h0 => rw [hpc] at hT; exact hT.elim
  | foundAll hpc hk => rw [hpc] at hT; exact hT.elim
  | take hpc h0 => rw [hpc] at hT; exact hT.elim
  | @read k hpc hk =>
    rw [hpc] at hT
    obtain ⟨h1, h2, hm, ha, hg⟩ := hT
    refine .server hw hA hB ?_
    simp only [State.goServer, Function.update_self]
    exact ⟨h1, hk, hm, ha, hg, hg k h1 hk⟩
  | @answer k c hpc =>
    rw [hpc] at hT
    obtain ⟨h1, h2, hm, ha, hg, hc⟩ := hT
    refine .server hw hA hB ?_
    simp only [State.goServer, State.setShm2, Function.update_self]
    refine ⟨by omega, h2, hm, Answers.snoc ?_ ?_, hg⟩
    · intro m hl hmk
      simpa [Function.update_of_ne hmk.ne] using ha m hl hmk
    · simpa [hc, Game.answer] using Game.answer_guess (P.secretString k) (s.rounds i + 1)
  | @finish k hpc hk =>
    rw [hpc] at hT
    obtain ⟨h1, h2, hm, ha, hg⟩ := hT
    obtain rfl : k = P.high i := le_antisymm h2 hk
    refine .server hw hA hB ?_
    simp only [State.goServer, State.countRound, Function.update_self]
    simp only [ServerTurn, Function.update_self]
    exact ⟨by omega, hm, ha, hg⟩
  | post hpc =>
    rw [hpc] at hT
    obtain ⟨h1, hm, ha, hg⟩ := hT
    refine .answered hw ?_ ?_ ?_ ha h1 hm hg
    · simpa [Function.update_of_ne hne] using hA
    · simpa using hB
    · simp only [State.goServer, State.semPost, Function.update_self]
      exact ⟨le_rfl, P.low_le_high i, fun j hl hj => absurd hj (by omega)⟩

theorem phase_server (hp : Phase P s i) (hm : ServerMove P s i t) :
    Phase P t i := by
  have hne : i + P.M ≠ i := by have := P.M_pos; omega
  cases hp with
  | client hA hB hI ha hc =>
    rcases idle_move hI hm with ⟨pc, rfl, hI'⟩ | ⟨-, h0, -⟩
    · exact .client hA hB (idle_goServer hI') ha hc
    · omega
  | posted hw hA hB hI ha hmore hg =>
    rcases idle_move hI hm with ⟨pc, rfl, hI'⟩ | ⟨hpc, -, rfl⟩
    · exact .posted hw hA hB (idle_goServer hI') ha hmore hg
    · rw [hpc] at hI
      refine .server hw ?_ ?_ ?_
      · simp [hA]
      · simpa [Function.update_of_ne hne] using hB
      · simp only [State.goServer, State.semWait, Function.update_self]
        exact ⟨le_rfl, P.low_le_high i, more_of_wait ha hI,
          fun j hl hj => absurd hj (by omega), hg⟩
  | server hw hA hB hT => exact turn_move hw hA hB hT hm
  | answered hw hA hB hI ha hr hmore hg =>
    rcases idle_move hI hm with ⟨pc, rfl, hI'⟩ | ⟨-, h0, -⟩
    · exact .answered hw hA hB (idle_goServer hI') ha hr hmore hg
    · omega

theorem phase_take (hp : Phase P s i) (h0 : 0 < s.sem (i + P.M)) :
    Phase P ((s.semWait (i + P.M)).goClient i (.scan (P.low i) false)) i := by
  have hne : i ≠ i + P.M := by have := P.M_pos; omega
  cases hp with
  | client hA hB hI ha hc => omega
  | posted hw hA hB hI ha hmore hg => omega
  | server hw hA hB hT => omega
  | answered hw hA hB hI ha hr hmore hg =>
    refine .client ?_ ?_ hI ha ?_
    · simpa [Function.update_of_ne hne] using hA
    · simp [hB]
    · simp only [State.goClient, State.semWait, Function.update_self]
      refine ⟨P.low_le_high i, ⟨hr, hmore, le_rfl, ?_, hg⟩, ?_⟩
      · exact fun j hl hj => absurd hj (by omega)
      · simp only [Bool.false_eq_true, false_iff]
        rintro ⟨j, hl, hj, -⟩
        omega

theorem not_wait_of_turn (hc : ClientTurn P s i (s.client i)) : s.client i ≠ .wait := by
  intro h
  rw [h] at hc
  exact hc

theorem Guesses.update_below {r k v : ℕ} {l : ℕ} (h : Guesses P s r l k) :
    Guesses P (s.setShm1 k v) r l k := by
  intro m hl hm
  simpa [Function.update_of_ne hm.ne] using h m hl hm

theorem Guesses.update_above {r k v h' : ℕ} (h : Guesses P s r k h') :
    Guesses P (s.setShm1 k v) r (k + 1) h' := by
  intro m hl hm
  simpa [Function.update_of_ne (by omega : m ≠ k)] using h m (by omega) hm

theorem more_succ_iff {k : ℕ} :
    (∃ j, P.low i ≤ j ∧ j < k + 1 ∧ 64 + s.rounds i < P.secretString j) ↔
    (∃ j, P.low i ≤ j ∧ j < k ∧ 64 + s.rounds i < P.secretString j) ∨
      (P.low i ≤ k ∧ 64 + s.rounds i < P.secretString k) := by
  constructor
  · rintro ⟨j, hl, hj, h⟩
    rcases Nat.lt_succ_iff_lt_or_eq.mp hj with hj | rfl
    · exact .inl ⟨j, hl, hj, h⟩
    · exact .inr ⟨hl, h⟩
  · rintro (⟨j, hl, hj, h⟩ | ⟨hl, h⟩)
    · exact ⟨j, hl, by omega, h⟩
    · exact ⟨k, hl, by omega, h⟩

theorem client_move (hi : i < P.M) (hA : s.sem i = 0) (hB : s.sem (i + P.M) = 0)
    (hI : ServerIdle P s i (s.server i)) (ha : Answers P s (s.rounds i) (P.low i) (P.high i))
    (hc : ClientTurn P s i (s.client i)) (hm : ClientMove P s i t) : Phase P t i := by
  have hne : i + P.M ≠ i := by have := P.M_pos; omega
  cases hm with
  | @fill k hpc hk =>
    rw [hpc] at hc
    obtain ⟨h1, h2, hr, hg⟩ := hc
    refine .client hA hB hI ha ?_
    simp only [State.goClient, State.setShm1, Function.update_self]
    refine ⟨by omega, hk, hr, Guesses.snoc hg.update_below ?_⟩
    simpa using (Game.guess_one (P.letter hi hk)).symm
  | @filled k hpc hk =>
    rw [hpc] at hc
    obtain ⟨h1, h2, hr, hg⟩ := hc
    obtain rfl : k = P.high i := le_antisymm h2 hk
    refine .client hA hB hI ha ?_
    simp only [State.goClient, Function.update_self]
    refine ⟨.inl hr, ?_⟩
    change Guesses P s (s.rounds i + 1) _ _
    rwa [hr]
  | post hpc =>
    rw [hpc] at hc
    refine .posted ?_ ?_ ?_ hI ha hc.1 hc.2
    · simp
    · simp [hA]
    · simpa [Function.update_of_ne hne] using hB
  | take hpc h0 => exact absurd hpc (not_wait_of_turn hc)
  | @wrong k flag hpc hk h0 =>
    rw [hpc] at hc
    obtain ⟨h1, hs, hf⟩ := hc
    refine .client hA hB hI ha ?_
    simp only [State.goClient, Function.update_self]
    exact ⟨hk, hs, Game.feedback_eq_zero.mp (ha k hs.2.2.1 hk ▸ h0)⟩
  | @right k flag hpc hk h0 =>
    rw [hpc] at hc
    obtain ⟨h1, ⟨hr, hmore, hl, hg, hg'⟩, hf⟩ := hc
    have hle : ¬ 64 + s.rounds i < P.secretString k := fun h =>
      h0 ((ha k hl hk).trans (Game.feedback_eq_zero.mpr h))
    have hk' : s.shm1 k = Game.guess (P.secretString k) (s.rounds i + 1) :=
      (hg' k le_rfl hk).trans (Game.guess_succ_of_le (by omega)).symm
    refine .client hA hB hI ha ?_
    simp only [State.goClient, Function.update_self]
    refine ⟨hk, ⟨hr, hmore, by omega, hg.snoc hk', fun m h1 h2 => hg' m (by omega) h2⟩, ?_⟩
    rw [more_succ_iff]
    simpa [hle] using hf
  | @again k hpc hk =>
    rw [hpc] at hc
    obtain ⟨h1, ⟨hr, hmore, hl, hg, hg'⟩, hf⟩ := hc
    obtain rfl : k = P.high i := le_antisymm h1 hk
    refine .client hA hB hI ha ?_
    simp only [State.goClient, Function.update_self]
    exact ⟨.inr (hf.mp rfl), hg⟩
  | @leave k hpc hk =>
    rw [hpc] at hc
    obtain ⟨h1, ⟨hr, hmore, hl, hg, hg'⟩, hf⟩ := hc
    obtain rfl : k = P.high i := le_antisymm h1 hk
    have hno : ¬ More P i (s.rounds i) := by simpa [More] using hf
    refine .client hA hB hI ha ?_
    simp only [State.goClient, Function.update_self]
    refine ⟨hr, hmore, hno, fun m h1 h2 => ?_⟩
    have hle : ¬ 64 + s.rounds i < P.secretString m := fun h => hno ⟨m, h1, h2, h⟩
    exact (hg m h1 h2).trans (Game.guess_succ_of_le (by omega))
  | @incr k hpc =>
    rw [hpc] at hc
    obtain ⟨hk, hs, hw⟩ := hc
    refine .client hA hB hI ha ?_
    simp only [State.goClient, Function.update_self]
    exact ⟨hk, hs, hw, hs.2.2.2.2 k le_rfl hk⟩
  | @incrWrite k c hpc =>
    rw [hpc] at hc
    obtain ⟨hk, ⟨hr, hmore, hl, hg, hg'⟩, hw, hcc⟩ := hc
    refine .client hA hB hI ha ?_
    simp only [State.goClient, State.setShm1, Function.update_self]
    refine ⟨hk, ⟨hr, hmore, by omega, Guesses.snoc hg.update_below ?_, hg'.update_above⟩, ?_⟩
    · simpa [hcc] using Game.guess_succ_of_lt (P.letter hi hk) hw
    · simp only [true_iff]
      exact more_succ_iff.mpr (.inr ⟨hl, hw⟩)

theorem Phase.of_client_turn (hp : Phase P s i) (hw : s.client i ≠ .wait) :
    s.sem i = 0 ∧ s.sem (i + P.M) = 0 ∧ ServerIdle P s i (s.server i) ∧
      Answers P s (s.rounds i) (P.low i) (P.high i) ∧ ClientTurn P s i (s.client i) := by
  cases hp with
  | client hA hB hI ha hc => exact ⟨hA, hB, hI, ha, hc⟩
  | posted hw' => exact absurd hw' hw
  | server hw' => exact absurd hw' hw
  | answered hw' => exact absurd hw' hw

theorem Phase.of_server_turn (hp : Phase P s i) (hn : ¬ ServerIdle P s i (s.server i)) :
    s.client i = .wait ∧ s.sem i = 0 ∧ s.sem (i + P.M) = 0 ∧ ServerTurn P s i (s.server i) := by
  cases hp with
  | client _ _ hI => exact absurd hI hn
  | posted _ _ _ hI => exact absurd hI hn
  | server hw hA hB hT => exact ⟨hw, hA, hB, hT⟩
  | answered _ _ _ hI => exact absurd hI hn

theorem phase_client (hi : i < P.M) (hp : Phase P s i) (hm : ClientMove P s i t) :
    Phase P t i := by
  by_cases hw : s.client i = .wait
  · cases hm with
    | take hpc h0 => exact phase_take hp h0
    | _ => simp_all
  · obtain ⟨hA, hB, hI, ha, hc⟩ := hp.of_client_turn hw
    exact client_move hi hA hB hI ha hc hm

variable {j : ℕ}

theorem server_frame (hi : i < P.M) (hj : j < P.M) (hij : j ≠ i) (hp : Phase P s i)
    (hm : ServerMove P s i t) : SamePair P s t j := by
  have h1 : j ≠ i + P.M := by omega
  have h2 : j + P.M ≠ i := by omega
  cases hm with
  | @answer k c hpc =>
    have hn : ¬ ServerIdle P s i (s.server i) := by rw [hpc]; exact id
    obtain ⟨-, -, -, hT⟩ := hp.of_server_turn hn
    rw [hpc] at hT
    have hk : P.low i ≤ k ∧ k < P.high i := ⟨hT.1, hT.2.1⟩
    refine ⟨?_, rfl, rfl, rfl, rfl, fun _ _ _ => rfl, fun m hl hm => ?_⟩
    · simp [hij]
    · exact Function.update_of_ne (P.ranges_disjoint hij ⟨hl, hm⟩ hk) _ _
  | _ => constructor <;> intros <;> simp [hij, h1, h2]

theorem client_frame (hi : i < P.M) (hj : j < P.M) (hij : j ≠ i) (hp : Phase P s i)
    (hm : ClientMove P s i t) : SamePair P s t j := by
  have h1 : j ≠ i + P.M := by omega
  have h2 : j + P.M ≠ i := by omega
  cases hm with
  | @fill k hpc hk =>
    obtain ⟨-, -, -, -, hc⟩ := hp.of_client_turn (by simp [hpc])
    rw [hpc] at hc
    refine ⟨rfl, ?_, rfl, rfl, rfl, fun m hl hm => ?_, fun _ _ _ => rfl⟩
    · simp [hij]
    · exact Function.update_of_ne (P.ranges_disjoint hij ⟨hl, hm⟩ ⟨hc.1, hk⟩) _ _
  | @incrWrite k c hpc =>
    obtain ⟨-, -, -, -, hc⟩ := hp.of_client_turn (by simp [hpc])
    rw [hpc] at hc
    refine ⟨rfl, ?_, rfl, rfl, rfl, fun m hl hm => ?_, fun _ _ _ => rfl⟩
    · simp [hij]
    · exact Function.update_of_ne (P.ranges_disjoint hij ⟨hl, hm⟩ ⟨hc.2.1.2.2.1, hc.1⟩) _ _
  | _ => constructor <;> intros <;> simp [hij, h1, h2]

theorem phase_start (hi : i < P.M) : Phase P (start P) i := by
  refine .client rfl rfl ?_ ?_ ?_
  · exact ⟨le_rfl, P.low_le_high i, fun j hl hj => absurd hj (by omega)⟩
  · exact fun k _ hk => (Game.feedback_zero (P.letter hi hk)).symm
  · exact ⟨le_rfl, P.low_le_high i, rfl, fun j hl hj => absurd hj (by omega)⟩

theorem phase_move (hp : ∀ i < P.M, Phase P s i) (hm : Move P s t) : ∀ j < P.M, Phase P t j := by
  intro j hj
  cases hm with
  | @server i t hi hm =>
    by_cases hij : j = i
    · subst hij; exact phase_server (hp j hj) hm
    · exact (server_frame hi hj hij (hp i hi) hm).phase (hp j hj)
  | @client i t hi hm =>
    by_cases hij : j = i
    · subst hij; exact phase_client hj (hp j hj) hm
    · exact (client_frame hi hj hij (hp i hi) hm).phase (hp j hj)
  | report =>
    have hsame : SamePair P s { s with reported := true } j :=
      ⟨rfl, rfl, rfl, rfl, rfl, fun _ _ _ => rfl, fun _ _ _ => rfl⟩
    exact hsame.phase (hp j hj)
  | guess =>
    have hsame : SamePair P s { s with guessed := true } j :=
      ⟨rfl, rfl, rfl, rfl, rfl, fun _ _ _ => rfl, fun _ _ _ => rfl⟩
    exact hsame.phase (hp j hj)

theorem phase_reachable (hs : (protocol P).Reachable s) : ∀ i < P.M, Phase P s i :=
  hs.invariant (fun s h i hi => by cases h; exact phase_start hi)
    (fun _ _ _ _ hp h => phase_move hp (protocol_move h))

end Guess
