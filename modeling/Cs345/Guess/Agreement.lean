import Cs345.Guess.Connect

namespace Guess

section Agreement
variable {H : Host} {m : BitVec 32} {c c' c0 : Conn} {base : ℕ}

structure Own (base : ℕ) (m : BitVec 32) (c : Conn) : Prop where
  le : base ≤ c.ipc.next
  made : ∀ j < c.attached, c.clientK j = 0 → base ≤ c.clientShmid j ∧
    ∃ s ∈ c.ipc.segments, s.id = c.clientShmid j ∧ s.key = 0 ∧ s.size = segmentSize c.N m j

theorem Own.none (hbase : base ≤ c.ipc.next) (h : c.attached = 0) : Own base m c :=
  ⟨hbase, fun j hj => absurd hj (by rw [h]; exact Nat.not_lt_zero j)⟩

theorem Own.frame (h : Own base m c) (hattached : c'.attached = c.attached)
    (hkeys : c'.clientK = c.clientK) (hids : c'.clientShmid = c.clientShmid) (hN : c'.N = c.N)
    (hnext : c.ipc.next ≤ c'.ipc.next) (hsub : c.ipc.segments ⊆ c'.ipc.segments) :
    Own base m c' := by
  refine ⟨h.le.trans hnext, fun j hj hk => ?_⟩
  rw [hattached] at hj
  rw [hkeys] at hk
  obtain ⟨hle, s, hs, hrest⟩ := h.made j hj hk
  rw [hids, hN]
  exact ⟨hle, s, hsub hs, hrest⟩

theorem Own.attach (h : Own base m c) {id : ℕ} {ipc : Ipc}
    (hcall : c.ipc.call (c.clientK c.attached) (segmentSize c.N m c.attached) false false =
      some (id, ipc)) (client : ClientAt) : Own base m (c.attach client c.attached id ipc) := by
  refine ⟨h.le.trans (call_next hcall).1, fun j hj hk => ?_⟩
  simp only [Conn.attach] at hk ⊢
  rcases Nat.lt_succ_iff_lt_or_eq.mp hj with hlt | rfl
  · obtain ⟨hle, s, hs, hrest⟩ := h.made j hlt hk
    rw [Function.update_of_ne (Nat.ne_of_lt hlt)]
    exact ⟨hle, s, call_subset hcall hs, hrest⟩
  · rw [hk] at hcall
    obtain ⟨-, rfl, rfl⟩ := call_private hcall
    rw [Function.update_self]
    exact ⟨h.le, _, List.mem_cons_self, rfl, rfl, rfl⟩

theorem own_step {w : Who} (hcl : c.client.Reached H c) (h : Own base m c)
    (hstep : ConnStep H m c w c') : Own base m c' := by
  have hsame := List.Subset.refl c.ipc.segments
  cases hstep with
  | created _ hcall => exact h.frame rfl rfl rfl rfl (call_next hcall).1 (call_subset hcall)
  | recvN hc _ =>
    rw [hc] at hcl
    exact .none h.le hcl.attached
  | recvKeys hc _ =>
    rw [hc] at hcl
    exact .none h.le hcl.2.1
  | attach hc hcall =>
    rw [hc] at hcl
    obtain ⟨rfl, -⟩ := hcl
    exact h.attach hcall _
  | _ => exact h.frame rfl rfl rfl rfl (Nat.le_refl _) hsame

theorem own_started (hftok : ∀ a < 100, H.ftok a ≠ 0) (hboot : ConnBoot c0)
    (hs : ((connection H m).started c0).Reachable c) : Own c0.ipc.next m c := by
  have h0 : (connection H m).Reachable c0 := .init hboot
  refine hs.invariant (fun s heq => ?_) fun s _ _ hr h hstep =>
    own_step (conn_reachable hftok (h0.of_started hr)).client h hstep
  cases heq
  exact .none (Nat.le_refl _) hboot.attached

structure Attached (H : Host) (m : BitVec 32) (c : Conn) (i : ℕ) : Prop where
  key : c.clientK i = c.k i
  same : c.clientShmid i = c.shmid i
  initialized : c.clientShmid i ∈ c.initialized
  size : ∃ s ∈ c.ipc.segments, s.id = c.clientShmid i ∧ segmentSize H.int m i ≤ s.size

structure Apart (H : Host) (m : BitVec 32) (c0 c : Conn) (i : ℕ) : Prop where
  key : c.clientK i = 0
  new : c0.ipc.next ≤ c.clientShmid i
  unfilled : c.clientShmid i ∉ c.initialized
  distinct : ∀ j < i, c.clientShmid j ≠ c.clientShmid i
  size : ∃ s ∈ c.ipc.segments, s.id = c.clientShmid i ∧ s.key = 0 ∧
    s.size = segmentSize H.int m i

theorem Shared.attached (hs : Shared H c) (h : ServerInv H m c) (ha : c.attached = 3)
    (hlive : c.client ≠ .gone) {i : ℕ} (hi : i < 3) : Attached H m c i := by
  have hcreated := (reached_sent h.reached).2 hs.sent
  have hheld := h.held i (by omega)
  have hsame := hs.ids i (by omega)
  have hM := h.asked hlive (.inl (by rw [hs.sent]; decide))
  obtain ⟨s, hfind, hid, hsize⟩ := hheld.found
  exact ⟨hs.keys i hi, hsame, hsame ▸ hheld.initialized, s, List.mem_of_find?_eq_some hfind,
    hid.trans hsame.symm, hM ▸ hsize⟩

theorem Private.apart (hp : Private H c) (ho : Own c0.ipc.next m c) (ha : c.attached = 3) {i : ℕ}
    (hi : i < 3) : Apart H m c0 c i := by
  have hlt : i < c.attached := by omega
  obtain ⟨hnew, s, hs, hid, hkey, hsize⟩ := ho.made i hlt (hp.keys i)
  exact ⟨hp.keys i, hnew, (hp.new i hlt).2, hp.distinct i hlt, s, hs, hid, hkey, hp.N ▸ hsize⟩

theorem reached_two (h : c.server.Reached c) (hsent : c.sent = 2) :
    c.server = .running ∨ c.server = .gone := by
  cases hserver : c.server with
  | running => exact .inl rfl
  | gone => exact .inr rfl
  | get i =>
    rw [hserver] at h
    have : c.sent = 1 := h.2.2
    omega
  | _ =>
    rw [hserver] at h
    have := h.2
    omega

theorem handshake_agreement (hftok : ∀ a < 100, H.ftok a ≠ 0) (hboot : ConnBoot c0)
    (hs : ((connection H m).started c0).Reachable c) (hc : c.client = .running) : c.N = H.int ∧
      (c.M = m ∧ c.sent = 2 ∧ (c.server = .running ∨ c.server = .gone) ∧
          (∀ i < 3, Attached H m c i) ∨
        c.sent = 1 ∧ c.server = .gone ∧ ∀ i < 3, Apart H m c0 c i) := by
  have h0 : (connection H m).Reachable c0 := .init hboot
  obtain ⟨h, hcl⟩ := conn_reachable hftok (h0.of_started hs)
  have hlive : c.client ≠ .gone := by rw [hc]; nofun
  rw [hc] at hcl
  obtain ⟨ha, hshared | hprivate | hlost⟩ := hcl
  · refine ⟨hshared.N, .inl ⟨h.asked hlive (.inl (by rw [hshared.sent]; decide)), hshared.sent,
      reached_two h.reached hshared.sent, fun i hi => hshared.attached h ha hlive hi⟩⟩
  · exact ⟨hprivate.N, .inr ⟨hprivate.sent, hprivate.gone, fun i hi =>
      hprivate.apart (own_started hftok hboot hs) ha hi⟩⟩
  · have := hlost.attached
    omega

end Agreement

section Progress
variable {H : Host} {m : BitVec 32} {c : Conn}

def ServerAt.settled (s : ServerAt) : Prop := s = .running ∨ s = .gone

def ClientAt.settled (s : ClientAt) : Prop := s = .running ∨ s = .gone

def ServerAt.owesN : ServerAt → Prop
  | .accept | .recvM | .sendN => True
  | _ => False

def ServerAt.owesKeys : ServerAt → Prop
  | .get _ | .sendKeys => True
  | _ => False

theorem server_waits (h : ServerInv H m c) (hopen : ¬ c.server.settled)
    (hno : ¬ (connection H m).Enabled c .server) : c.server = .recvM ∧ c.client = .sendM := by
  cases hserver : c.server with
  | accept => exact absurd ⟨_, .accept hserver⟩ hno
  | recvM =>
    refine ⟨rfl, ?_⟩
    by_cases hto : c.toServer = []
    · by_cases hgone : c.client = .gone
      · exact absurd ⟨_, .recvM hserver (.inr ⟨hto, hgone, rfl⟩)⟩ hno
      · by_contra hsend
        have htold := h.told hgone hsend (.inr hserver)
        rw [hto] at htold
        cases htold
    · exact absurd ⟨_, .recvM hserver (.inl ⟨hto, rfl⟩)⟩ hno
  | sendN =>
    by_cases hgone : c.client = .gone
    · exact absurd ⟨_, .sendNBroken hserver hgone⟩ hno
    · exact absurd ⟨_, .sendN hserver hgone⟩ hno
  | get i =>
    cases hcall : c.ipc.call (drawKey H.ftok H.rand c.pos) (segmentSize H.int c.M i) true (i = 2) with
    | none => exact absurd ⟨_, .drawAgain hserver hcall⟩ hno
    | some r => exact absurd ⟨_, .created hserver hcall⟩ hno
  | sendKeys =>
    by_cases hgone : c.client = .gone
    · exact absurd ⟨_, .sendKeysBroken hserver hgone⟩ hno
    · exact absurd ⟨_, .sendKeys hserver hgone⟩ hno
  | running => exact absurd (.inl hserver) hopen
  | gone => exact absurd (.inr hserver) hopen

theorem owes_of_sent (h : c.server.Reached c) (hlive : c.server ≠ .gone) :
    (c.sent = 0 → c.server.owesN) ∧ (c.sent = 1 → c.server.owesKeys) := by
  cases hserver : c.server with
  | gone => exact absurd hserver hlive
  | get i =>
    rw [hserver] at h
    have : c.sent = 1 := h.2.2
    exact ⟨fun h0 => by omega, fun _ => trivial⟩
  | sendKeys =>
    rw [hserver] at h
    have : c.sent = 1 := h.2
    exact ⟨fun h0 => by omega, fun _ => trivial⟩
  | running =>
    rw [hserver] at h
    have : c.sent = 2 := h.2
    exact ⟨fun h0 => by omega, fun h1 => by omega⟩
  | _ =>
    rw [hserver] at h
    have : c.sent = 0 := h.2
    exact ⟨fun _ => trivial, fun h1 => by omega⟩

theorem client_waits (hi : ConnInv H m c) (hopen : ¬ c.client.settled)
    (hno : ¬ (connection H m).Enabled c .client) :
    c.client = .recvN ∧ c.server.owesN ∨ c.client = .recvKeys ∧ c.server.owesKeys := by
  obtain ⟨h, hcl⟩ := hi
  cases hc : c.client with
  | sendM =>
    by_cases hgone : c.server = .gone
    · exact absurd ⟨_, .sendMBroken hc hgone⟩ hno
    · exact absurd ⟨_, .sendM hc hgone⟩ hno
  | recvN =>
    rw [hc] at hcl
    by_cases hto : c.toClient = []
    · by_cases hgone : c.server = .gone
      · exact absurd ⟨_, .recvN hc (.inr ⟨hto, hgone, rfl⟩)⟩ hno
      · refine .inl ⟨rfl, (owes_of_sent h.reached hgone).1 (Nat.eq_zero_of_not_pos fun hpos => ?_)⟩
        obtain ⟨rest, hrest⟩ := stream_pos (H := H) hpos
        rw [hcl.toClient, hrest] at hto
        cases hto
    · exact absurd ⟨_, .recvN hc (.inl ⟨hto, rfl⟩)⟩ hno
  | recvKeys =>
    rw [hc] at hcl
    obtain ⟨-, -, hcase⟩ := hcl
    by_cases hto : c.toClient = []
    · by_cases hgone : c.server = .gone
      · exact absurd ⟨_, .recvKeys hc (.inr ⟨hto, hgone, rfl⟩)⟩ hno
      · obtain ⟨-, hpos, hstream⟩ := hcase.resolve_right fun hlost => hgone hlost.2.1
        have hle := (reached_sent h.reached).1
        refine .inr ⟨rfl, (owes_of_sent h.reached hgone).2 ?_⟩
        by_contra hone
        have htwo : c.sent = 2 := by omega
        rw [stream_two htwo, List.drop_left' (length_intBytes _), hto] at hstream
        cases hstream
    · exact absurd ⟨_, .recvKeys hc (.inl ⟨hto, rfl⟩)⟩ hno
  | get i =>
    cases hcall : c.ipc.call (c.clientK i) (segmentSize c.N m i) false false with
    | none => exact absurd ⟨_, .attachFailed hc hcall⟩ hno
    | some r => exact absurd ⟨_, .attach hc hcall⟩ hno
  | running => exact absurd (.inl hc) hopen
  | gone => exact absurd (.inr hc) hopen

theorem handshake_progress (hftok : ∀ a < 100, H.ftok a ≠ 0)
    (hs : (connection H m).Reachable c) :
    (¬ c.server.settled → ¬ (connection H m).Enabled c .server →
      c.server = .recvM ∧ c.client = .sendM) ∧
    (¬ c.client.settled → ¬ (connection H m).Enabled c .client →
      c.client = .recvN ∧ c.server.owesN ∨ c.client = .recvKeys ∧ c.server.owesKeys) ∧
    (¬ (c.server.settled ∧ c.client.settled) →
      (connection H m).Enabled c .server ∨ (connection H m).Enabled c .client) := by
  have hi := conn_reachable hftok hs
  refine ⟨server_waits hi.server, client_waits hi, fun hopen => ?_⟩
  by_contra hno
  obtain ⟨hserver, hclient⟩ := not_or.mp hno
  have hsettled : c.server.settled := by
    by_contra hunsettled
    obtain ⟨-, hsend⟩ := server_waits hi.server hunsettled hserver
    have hunsent : ¬ c.client.settled := by
      rw [hsend]
      rintro (h | h) <;> cases h
    rcases client_waits hi hunsent hclient with ⟨hc, -⟩ | ⟨hc, -⟩ <;> rw [hsend] at hc <;> cases hc
  rcases client_waits hi (fun hx => hopen ⟨hsettled, hx⟩) hclient with ⟨-, howes⟩ | ⟨-, howes⟩
  · rcases hsettled with hx | hx <;> rw [hx] at howes <;> exact howes
  · rcases hsettled with hx | hx <;> rw [hx] at howes <;> exact howes

end Progress

section Sample

def bootConn : Conn where
  server := .accept
  client := .sendM
  toServer := []
  toClient := []
  M := 0
  k _ := 0
  shmid _ := 0
  created := 0
  sent := 0
  N := 0
  clientK _ := 0
  clientShmid _ := 0
  attached := 0
  ipc := bootServer.ipc
  pos := 0
  initialized := []

theorem boot_conn : ConnBoot bootConn :=
  ⟨rfl, rfl, rfl, rfl, rfl, rfl, rfl, fun _ => rfl, rfl, rfl⟩

def booted : Machine Conn Who := (connection sampleHost 1).started bootConn

theorem keys_received : ∃ c, booted.Reachable c ∧ c.client = .running ∧ c.server = .running := by
  have h0 : booted.Reachable bootConn := .init rfl
  have h1 := h0.step (.sendM rfl nofun)
  have h2 := h1.step (.accept rfl)
  have h3 := h2.step (.recvM rfl (.inl ⟨nofun, rfl⟩))
  have h4 := h3.step (.sendN rfl nofun)
  have h5 := h4.step (@ConnStep.created _ _ _ 0 _ _ rfl rfl)
  have h6 := h5.step (@ConnStep.created _ _ _ 1 _ _ rfl rfl)
  have h7 := h6.step (@ConnStep.created _ _ _ 2 _ _ rfl rfl)
  have h8 := h7.step (.sendKeys rfl nofun)
  have h9 := h8.step (.recvN rfl (.inl ⟨nofun, rfl⟩))
  have h10 := h9.step (.recvKeys rfl (.inl ⟨nofun, rfl⟩))
  have h11 := h10.step (@ConnStep.attach _ _ _ 0 _ _ rfl rfl)
  have h12 := h11.step (@ConnStep.attach _ _ _ 1 _ _ rfl rfl)
  have h13 := h12.step (@ConnStep.attach _ _ _ 2 _ _ rfl rfl)
  exact ⟨_, h13, rfl, rfl⟩

theorem keys_missed : ∃ c, booted.Reachable c ∧ c.client = .running ∧ c.sent = 1 := by
  have h0 : booted.Reachable bootConn := .init rfl
  have h1 := h0.step (.sendM rfl nofun)
  have h2 := h1.step (.accept rfl)
  have h3 := h2.step (.recvM rfl (.inl ⟨nofun, rfl⟩))
  have h4 := h3.step (.sendN rfl nofun)
  have h5 := h4.step (@ConnStep.created _ _ _ 0 _ _ rfl rfl)
  have h6 := h5.step (.interrupt nofun)
  have h7 := h6.step (.recvN rfl (.inl ⟨nofun, rfl⟩))
  have h8 := h7.step (.recvKeys rfl (.inr ⟨rfl, rfl, rfl⟩))
  have h9 := h8.step (@ConnStep.attach _ _ _ 0 _ _ rfl rfl)
  have h10 := h9.step (@ConnStep.attach _ _ _ 1 _ _ rfl rfl)
  have h11 := h10.step (@ConnStep.attach _ _ _ 2 _ _ rfl rfl)
  exact ⟨_, h11, rfl, rfl⟩

theorem sample_agreement :
    (∃ c, booted.Reachable c ∧ c.server = .running ∧ ∀ i < 3, Attached sampleHost 1 c i) ∧
      ∃ c, booted.Reachable c ∧ c.client = .running ∧
        ∀ i < 3, Apart sampleHost 1 bootConn c i := by
  constructor
  · obtain ⟨c, hs, hc, hserver⟩ := keys_received
    obtain ⟨-, ⟨-, -, -, hall⟩ | ⟨-, hgone, -⟩⟩ :=
      handshake_agreement (H := sampleHost) sampleFtok_ne_zero boot_conn hs hc
    · exact ⟨c, hs, hserver, hall⟩
    · rw [hserver] at hgone
      cases hgone
  · obtain ⟨c, hs, hc, hsent⟩ := keys_missed
    obtain ⟨-, ⟨-, htwo, -⟩ | ⟨-, -, hall⟩⟩ :=
      handshake_agreement (H := sampleHost) sampleFtok_ne_zero boot_conn hs hc
    · omega
    · exact ⟨c, hs, hc, hall⟩

theorem keys_awaited : ∃ c, (connection sampleHost 1).Reachable c ∧ c.client = .recvKeys ∧
    c.toClient = [] ∧ c.server = .get 1 := by
  have h0 : (connection sampleHost 1).Reachable bootConn := .init boot_conn
  have h1 := h0.step (.sendM rfl nofun)
  have h2 := h1.step (.accept rfl)
  have h3 := h2.step (.recvM rfl (.inl ⟨nofun, rfl⟩))
  have h4 := h3.step (.sendN rfl nofun)
  have h5 := h4.step (.recvN rfl (.inl ⟨nofun, rfl⟩))
  have h6 := h5.step (@ConnStep.created _ _ _ 0 _ _ rfl rfl)
  exact ⟨_, h6, rfl, rfl, rfl⟩

theorem sample_handshake : ∃ c, (connection sampleHost 1).Reachable c ∧
    ¬ (connection sampleHost 1).Enabled c .client ∧ c.client = .recvKeys ∧ c.server.owesKeys ∧
    (connection sampleHost 1).Enabled c .server := by
  obtain ⟨c, hs, hc, hto, hserver⟩ := keys_awaited
  obtain ⟨-, hwaits, hmoves⟩ := handshake_progress (H := sampleHost) sampleFtok_ne_zero hs
  have hopen : ¬ c.client.settled := by
    rw [hc]
    rintro (h | h) <;> cases h
  have hno : ¬ (connection sampleHost 1).Enabled c .client := by
    rintro ⟨c', hstep⟩
    cases hstep with
    | recvKeys _ hread =>
      rcases hread with ⟨hne, -⟩ | ⟨-, hgone, -⟩
      · exact hne hto
      · rw [hserver] at hgone
        cases hgone
    | _ => simp_all
  refine ⟨c, hs, hno, hc, ?_, (hmoves fun h => hopen h.2).resolve_right hno⟩
  rcases hwaits hopen hno with ⟨hrecv, -⟩ | ⟨-, howes⟩
  · rw [hc] at hrecv
    cases hrecv
  · exact howes

end Sample
end Guess
