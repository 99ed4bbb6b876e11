import Cs345.Guess.Rounds

namespace Guess
variable (P : Session)

inductive Segment where
  | shm1
  | shm2
deriving DecidableEq, Repr

structure Access where
  segment : Segment
  index : ℕ
  write : Bool
deriving DecidableEq, Repr

def serverAccess (s : State) (i : ℕ) : Option Access :=
  match s.server i with
  | .found k => if k < P.high i then some ⟨.shm2, k, false⟩ else none
  | .compare k => if k < P.high i then some ⟨.shm1, k, false⟩ else none
  | .compareWrite k _ => some ⟨.shm2, k, true⟩
  | _ => none

def clientAccess (s : State) (i : ℕ) : Option Access :=
  match s.client i with
  | .fill k => if k < P.high i then some ⟨.shm1, k, true⟩ else none
  | .scan k _ => if k < P.high i then some ⟨.shm2, k, false⟩ else none
  | .incr k => some ⟨.shm1, k, false⟩
  | .incrWrite k _ => some ⟨.shm1, k, true⟩
  | _ => none

def ServerPc.holdsTurn : ServerPc → Bool
  | .compare _ | .compareWrite _ _ | .post => true
  | _ => false

def ClientPc.usesRange : ClientPc → Bool
  | .fill _ | .scan _ _ | .incr _ | .incrWrite _ _ => true
  | _ => false

def threadAccess (s : State) (i : ℕ) (a : Access) : Prop :=
  serverAccess P s i = some a ∨ clientAccess P s i = some a

structure Turns (s : State) : Prop where
  oneToken : ∀ i < P.M, s.sem i + s.sem (i + P.M) ≤ 1
  serverTurn : ∀ i < P.M, (s.server i).holdsTurn = true →
    s.client i = .wait ∧ s.sem (i + P.M) = 0
  clientTurn : ∀ i < P.M, (s.client i).usesRange = true → (s.server i).comparing = false
  duringServer : ∀ i < P.M, (s.server i).holdsTurn = true → clientAccess P s i = none
  duringClient : ∀ i < P.M, (s.client i).usesRange = true → ∀ a, serverAccess P s i = some a →
    (∃ k, s.server i = .found k) ∧ a.segment = .shm2 ∧ a.write = false
  noConflict : ∀ i < P.M, ∀ a b, serverAccess P s i = some a → clientAccess P s i = some b →
    a.segment = b.segment → a.write = false ∧ b.write = false
  ownRange : ∀ i < P.M, ∀ a, threadAccess P s i a → P.low i ≤ a.index ∧ a.index < P.high i

variable {P} {s : State} {i : ℕ}

theorem Phase.one_token (hp : Phase P s i) : s.sem i + s.sem (i + P.M) ≤ 1 := by
  cases hp <;> omega

theorem Phase.server_holds (hp : Phase P s i) (h : (s.server i).holdsTurn = true) :
    s.client i = .wait ∧ s.sem (i + P.M) = 0 ∧ ServerTurn P s i (s.server i) := by
  have hn : ¬ ServerIdle P s i (s.server i) := by
    intro hI
    cases hpc : s.server i <;> rw [hpc] at h hI
    case found => cases h
    case wait => cases h
    case exited => cases h
    all_goals exact hI
  obtain ⟨hw, -, hB, hT⟩ := hp.of_server_turn hn
  exact ⟨hw, hB, hT⟩

theorem comparing_holds {pc : ServerPc} (h : pc.comparing = true) : pc.holdsTurn = true := by
  cases pc <;> simp_all [ServerPc.comparing, ServerPc.holdsTurn]

theorem Phase.client_uses (hp : Phase P s i) (h : (s.client i).usesRange = true) :
    (s.server i).holdsTurn = false := by
  by_contra hs
  have hw := (hp.server_holds (by simpa using hs)).1
  rw [hw] at h
  cases h

theorem serverAccess_cases {a : Access} (h : serverAccess P s i = some a) :
    (∃ k, s.server i = .found k ∧ k < P.high i ∧ a = ⟨.shm2, k, false⟩) ∨
    (∃ k, s.server i = .compare k ∧ k < P.high i ∧ a = ⟨.shm1, k, false⟩) ∨
    (∃ k c, s.server i = .compareWrite k c ∧ a = ⟨.shm2, k, true⟩) := by
  unfold serverAccess at h
  split at h
  next k hpc => split_ifs at h with hk; cases h; exact .inl ⟨k, hpc, hk, rfl⟩
  next k hpc => split_ifs at h with hk; cases h; exact .inr (.inl ⟨k, hpc, hk, rfl⟩)
  next k c hpc => cases h; exact .inr (.inr ⟨k, c, hpc, rfl⟩)
  next => cases h

theorem clientAccess_cases {a : Access} (h : clientAccess P s i = some a) :
    (∃ k, s.client i = .fill k ∧ k < P.high i ∧ a = ⟨.shm1, k, true⟩) ∨
    (∃ k flag, s.client i = .scan k flag ∧ k < P.high i ∧ a = ⟨.shm2, k, false⟩) ∨
    (∃ k, s.client i = .incr k ∧ a = ⟨.shm1, k, false⟩) ∨
    (∃ k c, s.client i = .incrWrite k c ∧ a = ⟨.shm1, k, true⟩) := by
  unfold clientAccess at h
  split at h
  next k hpc => split_ifs at h with hk; cases h; exact .inl ⟨k, hpc, hk, rfl⟩
  next k flag hpc => split_ifs at h with hk; cases h; exact .inr (.inl ⟨k, flag, hpc, hk, rfl⟩)
  next k hpc => cases h; exact .inr (.inr (.inl ⟨k, hpc, rfl⟩))
  next k c hpc => cases h; exact .inr (.inr (.inr ⟨k, c, hpc, rfl⟩))
  next => cases h

theorem clientAccess_uses {a : Access} (h : clientAccess P s i = some a) :
    (s.client i).usesRange = true := by
  rcases clientAccess_cases h with ⟨k, hpc, -, -⟩ | ⟨k, f, hpc, -, -⟩ | ⟨k, hpc, -⟩ | ⟨k, c, hpc, -⟩ <;>
    simp [hpc, ClientPc.usesRange]

theorem Phase.during_client (hp : Phase P s i) (h : (s.client i).usesRange = true) {a : Access}
    (ha : serverAccess P s i = some a) :
    (∃ k, s.server i = .found k) ∧ a.segment = .shm2 ∧ a.write = false := by
  have hidle := hp.client_uses h
  rcases serverAccess_cases ha with ⟨k, hpc, -, rfl⟩ | ⟨k, hpc, -, rfl⟩ | ⟨k, c, hpc, rfl⟩
  · exact ⟨⟨k, hpc⟩, rfl, rfl⟩
  · simp [hpc, ServerPc.holdsTurn] at hidle
  · simp [hpc, ServerPc.holdsTurn] at hidle

theorem clientAccess_shm2 {a : Access} (h : clientAccess P s i = some a)
    (hseg : a.segment = .shm2) : a.write = false := by
  rcases clientAccess_cases h with ⟨k, -, -, rfl⟩ | ⟨k, f, -, -, rfl⟩ | ⟨k, -, rfl⟩ | ⟨k, c, -, rfl⟩
  · cases hseg
  · rfl
  · rfl
  · cases hseg

theorem Phase.during_server (hp : Phase P s i) (h : (s.server i).holdsTurn = true) :
    clientAccess P s i = none := by
  by_contra hne
  obtain ⟨a, ha⟩ := Option.ne_none_iff_exists'.mp hne
  have huse := clientAccess_uses ha
  rw [(hp.server_holds h).1] at huse
  cases huse

theorem Phase.own_range (hp : Phase P s i) {a : Access} (h : threadAccess P s i a) :
    P.low i ≤ a.index ∧ a.index < P.high i := by
  rcases h with h | h
  · rcases serverAccess_cases h with ⟨k, hpc, hk, rfl⟩ | ⟨k, hpc, hk, rfl⟩ | ⟨k, c, hpc, rfl⟩
    · cases hp with
      | server _ _ _ hT => rw [hpc] at hT; exact hT.elim
      | client _ _ hI => rw [hpc] at hI; exact ⟨hI.1, hk⟩
      | posted _ _ _ hI => rw [hpc] at hI; exact ⟨hI.1, hk⟩
      | answered _ _ _ hI => rw [hpc] at hI; exact ⟨hI.1, hk⟩
    · have hT := (hp.server_holds (by simp [hpc, ServerPc.holdsTurn])).2.2
      rw [hpc] at hT
      exact ⟨hT.1, hk⟩
    · have hT := (hp.server_holds (by simp [hpc, ServerPc.holdsTurn])).2.2
      rw [hpc] at hT
      exact ⟨hT.1, hT.2.1⟩
  · have hw : s.client i ≠ .wait := by
      intro hw
      have huse := clientAccess_uses h
      rw [hw] at huse
      cases huse
    obtain ⟨-, -, -, -, hc⟩ := hp.of_client_turn hw
    rcases clientAccess_cases h with ⟨k, hpc, hk, rfl⟩ | ⟨k, f, hpc, hk, rfl⟩ | ⟨k, hpc, rfl⟩ |
      ⟨k, c, hpc, rfl⟩ <;>
      rw [hpc] at hc
    · exact ⟨hc.1, hk⟩
    · exact ⟨hc.2.1.2.2.1, hk⟩
    · exact ⟨hc.2.1.2.2.1, hc.1⟩
    · exact ⟨hc.2.1.2.2.1, hc.1⟩

theorem turns_reachable (hs : (protocol P).Reachable s) : Turns P s where
  oneToken i hi := (phase_reachable hs i hi).one_token
  serverTurn i hi h := by
    obtain ⟨hw, hB, -⟩ := (phase_reachable hs i hi).server_holds h
    exact ⟨hw, hB⟩
  clientTurn i hi h := by
    by_contra hc
    have hidle := (phase_reachable hs i hi).client_uses h
    rw [comparing_holds (by simpa using hc)] at hidle
    cases hidle
  duringServer i hi h := (phase_reachable hs i hi).during_server h
  duringClient i hi h a ha := (phase_reachable hs i hi).during_client h ha
  noConflict i hi a b ha hb hseg := by
    obtain ⟨-, hshm, hread⟩ := (phase_reachable hs i hi).during_client (clientAccess_uses hb) ha
    exact ⟨hread, clientAccess_shm2 hb (hseg ▸ hshm)⟩
  ownRange i hi a h := (phase_reachable hs i hi).own_range h

theorem exclusive_turns (P : Session) :
    (∀ s, (protocol P).Reachable s → Turns P s) ∧
    ∀ s t, (protocol P).Reachable s → (protocol P).Reachable t → ∀ i < P.M, ∀ j < P.M, i ≠ j →
      ∀ a b, threadAccess P s i a → threadAccess P t j b → a.index ≠ b.index :=
  ⟨fun _ hs => turns_reachable hs, fun _ _ hs ht _ hi _ hj hij a b ha hb =>
    P.ranges_disjoint hij ((turns_reachable hs).ownRange _ hi a ha)
      ((turns_reachable ht).ownRange _ hj b hb)⟩

def oneLetter : Session where
  N := 1
  M := 1
  secretString _ := 65
  N_pos := le_rfl
  M_pos := le_rfl
  letters _ _ := .inl ⟨le_rfl, by omega⟩

def oneRound : List Actor :=
  [.client 0, .client 0, .client 0, .server 0, .server 0, .server 0, .server 0, .server 0,
    .server 0, .client 0]

theorem shared_scan : ∃ s, (protocol oneLetter).Reachable s ∧
    (s.client 0).usesRange = true ∧ serverAccess oneLetter s 0 = some ⟨.shm2, 0, false⟩ ∧
    clientAccess oneLetter s 0 = some ⟨.shm2, 0, false⟩ := by
  obtain ⟨s, hs, h⟩ := Machine.exists_of_foldlM oneRound (fun s : State => decide
    ((s.client 0).usesRange = true ∧ serverAccess oneLetter s 0 = some ⟨.shm2, 0, false⟩ ∧
      clientAccess oneLetter s 0 = some ⟨.shm2, 0, false⟩)) (reachable_start oneLetter) (by decide)
  exact ⟨s, hs, of_decide_eq_true h⟩

end Guess
