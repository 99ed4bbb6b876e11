import Cs345.Machine
import Cs345.Guess.Server

namespace Guess

section Bytes

abbrev Byte := BitVec 8

def intBytes (x : BitVec 32) : List Byte :=
  [x.extractLsb' 0 8, x.extractLsb' 8 8, x.extractLsb' 16 8, x.extractLsb' 24 8]

def keyBytes (k : ℕ → Key) : List Byte := intBytes (k 0) ++ intBytes (k 1) ++ intBytes (k 2)

def storeKeys (k : ℕ → Key) (bytes : List Byte) (i : ℕ) : Key :=
  if i < 3 then storeBytes (k i) ((bytes.drop (4 * i)).take 4) else k i

theorem storeBytes_intBytes (M x : BitVec 32) : storeBytes M (intBytes x) = x := by
  change x.extractLsb' 24 8 ++ x.extractLsb' 16 8 ++ x.extractLsb' 8 8 ++ x.extractLsb' 0 8 = x
  have hhigh : x.extractLsb' 24 8 ++ x.extractLsb' 16 8 = x.extractLsb' 16 16 :=
    BitVec.extractLsb'_append_extractLsb'_eq_extractLsb' rfl
  have hmid : x.extractLsb' 16 16 ++ x.extractLsb' 8 8 = x.extractLsb' 8 24 :=
    BitVec.extractLsb'_append_extractLsb'_eq_extractLsb' rfl
  have hlow : x.extractLsb' 8 24 ++ x.extractLsb' 0 8 = x.extractLsb' 0 32 :=
    BitVec.extractLsb'_append_extractLsb'_eq_extractLsb' rfl
  rw [hhigh, hmid, hlow, BitVec.extractLsb'_eq_self]

theorem storeKeys_keyBytes (k k' : ℕ → Key) {i : ℕ} (hi : i < 3) :
    storeKeys k' (keyBytes k) i = k i := by
  rw [storeKeys, if_pos hi]
  match i, hi with
  | 0, _ => exact storeBytes_intBytes _ _
  | 1, _ => exact storeBytes_intBytes _ _
  | 2, _ => exact storeBytes_intBytes _ _

end Bytes

section Call
variable {ipc ipc' : Ipc} {key k : Key} {size id : ℕ} {creat excl : Bool} {s : ShmSegment}

def Ipc.call (ipc : Ipc) (key : Key) (size : ℕ) (creat excl : Bool) : Option (ℕ × Ipc) :=
  if key = 0 then if size = 0 then none else some (ipc.next, ipc.create 0 size)
  else if creat then ipc.shmget key size excl
  else
    match ipc.find key with
    | some s => if size ≤ s.size then some (s.id, ipc) else none
    | none => none

theorem shmget_held (h : ipc.shmget key size excl = some (id, ipc')) :
    ∃ s, ipc'.find key = some s ∧ s.id = id ∧ size ≤ s.size := by
  cases hs : ipc.find key with
  | some s =>
    simp only [Ipc.shmget, hs] at h
    split_ifs at h with hexcl hle
    cases h
    exact ⟨s, hs, rfl, hle⟩
  | none =>
    simp only [Ipc.shmget, hs] at h
    split_ifs at h
    cases h
    exact ⟨_, Ipc.find_create_self, rfl, Nat.le_refl _⟩

theorem call_held (hkey : key ≠ 0) (h : ipc.call key size true excl = some (id, ipc')) :
    ∃ s, ipc'.find key = some s ∧ s.id = id ∧ size ≤ s.size := by
  rw [Ipc.call, if_neg hkey, if_pos rfl] at h
  exact shmget_held h

theorem call_keeps (h : ipc.call key size creat excl = some (id, ipc')) (hk : k ≠ 0)
    (hs : ipc.find k = some s) : ipc'.find k = some s := by
  simp only [Ipc.call] at h
  split_ifs at h with hkey hsize hcreat
  · cases h
    rw [Ipc.find_create_of_ne hk, hs]
  · rcases Ipc.shmget_cases h with ⟨_, -, -, -, rfl⟩ | ⟨hfree, -, rfl⟩
    · exact hs
    · have hne : k ≠ key := by
        rintro rfl
        rw [hs] at hfree
        cases hfree
      rw [Ipc.find_create_of_ne hne, hs]
  · split at h
    · split_ifs at h
      cases h
      exact hs
    · cases h

theorem call_next (h : ipc.call key size creat excl = some (id, ipc')) :
    ipc.next ≤ ipc'.next ∧ id < ipc'.next := by
  simp only [Ipc.call] at h
  split_ifs at h
  · cases h
    exact ⟨Nat.le_succ _, Nat.lt_succ_self _⟩
  · exact Ipc.shmget_next h
  · split at h
    next s hs =>
      split_ifs at h
      cases h
      exact ⟨Nat.le_refl _, Ipc.lt_of_find hs⟩
    next => cases h

theorem call_subset (h : ipc.call key size creat excl = some (id, ipc')) :
    ipc.segments ⊆ ipc'.segments := by
  simp only [Ipc.call] at h
  split_ifs at h
  · cases h
    exact List.subset_cons_self _ _
  · rcases Ipc.shmget_cases h with ⟨_, -, -, -, rfl⟩ | ⟨-, -, rfl⟩
    · exact List.Subset.refl _
    · exact List.subset_cons_self _ _
  · split at h
    · split_ifs at h
      cases h
      exact List.Subset.refl _
    · cases h

theorem call_private (h : ipc.call 0 size creat excl = some (id, ipc')) :
    0 < size ∧ id = ipc.next ∧ ipc' = ipc.create 0 size := by
  rw [Ipc.call, if_pos rfl] at h
  split_ifs at h with hsize
  cases h
  exact ⟨Nat.pos_of_ne_zero hsize, rfl, rfl⟩

theorem call_found (hkey : key ≠ 0) (hs : ipc.find key = some s) (hle : size ≤ s.size) :
    ipc.call key size false excl = some (s.id, ipc) := by
  rw [Ipc.call, if_neg hkey, if_neg Bool.false_ne_true]
  simp only [hs, if_pos hle]

end Call

section Machine

def segmentSize (N M : BitVec 32) : ℕ → ℕ
  | 0 => sizeT N
  | 1 => (N.signExtend 64 * BitVec.ofNat 64 sizeofInt).toNat
  | _ => semBytes M

def Host.int (H : Host) : BitVec 32 := BitVec.ofNat 32 H.N

inductive ServerAt where
  | accept
  | recvM
  | sendN
  | get (i : ℕ)
  | sendKeys
  | running
  | gone
deriving DecidableEq

inductive ClientAt where
  | sendM
  | recvN
  | recvKeys
  | get (i : ℕ)
  | running
  | gone
deriving DecidableEq

structure Conn where
  server : ServerAt
  client : ClientAt
  toServer : List Byte
  toClient : List Byte
  M : BitVec 32
  k : ℕ → Key
  shmid : ℕ → ℕ
  created : ℕ
  sent : ℕ
  N : BitVec 32
  clientK : ℕ → Key
  clientShmid : ℕ → ℕ
  attached : ℕ
  ipc : Ipc
  pos : ℕ
  initialized : List ℕ

def Conn.attach (c : Conn) (client : ClientAt) (i id : ℕ) (ipc : Ipc) : Conn :=
  { c with
    client := client
    clientShmid := Function.update c.clientShmid i id
    attached := i + 1
    ipc := ipc }

inductive Who where
  | server
  | client
  | signal

-- a process ends at the first call that fails, and a send to a process that has ended fails
inductive ConnStep (H : Host) (m : BitVec 32) (c : Conn) : Who → Conn → Prop
  | accept : c.server = .accept →
      ConnStep H m c .server { c with
        server := if H.calloc 1 (sizeT (BitVec.ofNat 32 (H.N + 1))) then .recvM else .gone
        pos := c.pos + H.N }
  | recvM {M : BitVec 32} : c.server = .recvM →
      (c.toServer ≠ [] ∧ M = storeBytes c.M (c.toServer.take 4) ∨
        c.toServer = [] ∧ c.client = .gone ∧ M = c.M) →
      ConnStep H m c .server { c with
        server := if H.calloc (sizeT (2#32 * M)) sizeofInt then .sendN else .gone
        toServer := c.toServer.drop 4
        M := M }
  | sendN : c.server = .sendN → c.client ≠ .gone →
      ConnStep H m c .server { c with
        server := .get 0, toClient := c.toClient ++ intBytes H.int, sent := 1 }
  | sendNBroken : c.server = .sendN → c.client = .gone →
      ConnStep H m c .server { c with server := .gone }
  | created {i id : ℕ} {ipc : Ipc} : c.server = .get i →
      c.ipc.call (drawKey H.ftok H.rand c.pos) (segmentSize H.int c.M i) true (i = 2) =
        some (id, ipc) →
      ConnStep H m c .server { c with
        server := if i < 2 then .get (i + 1) else .sendKeys
        k := Function.update c.k i (drawKey H.ftok H.rand c.pos)
        shmid := Function.update c.shmid i id
        created := i + 1
        ipc := ipc
        pos := c.pos + 1
        initialized := id :: c.initialized }
  | drawAgain {i : ℕ} : c.server = .get i →
      c.ipc.call (drawKey H.ftok H.rand c.pos) (segmentSize H.int c.M i) true (i = 2) = none →
      ConnStep H m c .server { c with
        k := Function.update c.k i (drawKey H.ftok H.rand c.pos), pos := c.pos + 1 }
  | sendKeys : c.server = .sendKeys → c.client ≠ .gone →
      ConnStep H m c .server { c with
        server := if H.calloc (sizeT c.M) sizeofPthread then .running else .gone
        toClient := c.toClient ++ keyBytes c.k
        sent := 2 }
  | sendKeysBroken : c.server = .sendKeys → c.client = .gone →
      ConnStep H m c .server { c with server := .gone }
  | interrupt : c.server ≠ .gone → ConnStep H m c .signal { c with server := .gone }
  | sendM : c.client = .sendM → c.server ≠ .gone →
      ConnStep H m c .client { c with client := .recvN, toServer := intBytes m }
  | sendMBroken : c.client = .sendM → c.server = .gone →
      ConnStep H m c .client { c with client := .gone }
  -- at the end of the stream recv gives 0, which is no error
  | recvN {N : BitVec 32} : c.client = .recvN →
      (c.toClient ≠ [] ∧ N = storeBytes c.N (c.toClient.take 4) ∨
        c.toClient = [] ∧ c.server = .gone ∧ N = c.N) →
      ConnStep H m c .client { c with
        client := .recvKeys, N := N, toClient := c.toClient.drop 4 }
  | recvKeys {k : ℕ → Key} : c.client = .recvKeys →
      (c.toClient ≠ [] ∧ k = storeKeys c.clientK (c.toClient.take 12) ∨
        c.toClient = [] ∧ c.server = .gone ∧ k = c.clientK) →
      ConnStep H m c .client { c with
        client := .get 0, clientK := k, toClient := c.toClient.drop 12 }
  | attach {i id : ℕ} {ipc : Ipc} : c.client = .get i →
      c.ipc.call (c.clientK i) (segmentSize c.N m i) false false = some (id, ipc) →
      ConnStep H m c .client (c.attach
        (if i < 2 then .get (i + 1)
          else if H.calloc (sizeT m) sizeofPthread then .running else .gone) i id ipc)
  | attachFailed {i : ℕ} : c.client = .get i →
      c.ipc.call (c.clientK i) (segmentSize c.N m i) false false = none →
      ConnStep H m c .client { c with client := .gone }
  | kill : c.client ≠ .gone → ConnStep H m c .signal { c with client := .gone }

structure ConnBoot (c : Conn) : Prop where
  server : c.server = .accept
  client : c.client = .sendM
  toServer : c.toServer = []
  toClient : c.toClient = []
  created : c.created = 0
  sent : c.sent = 0
  N : c.N = 0
  clientK : ∀ i, c.clientK i = 0
  attached : c.attached = 0
  initialized : c.initialized = []

def connection (H : Host) (m : BitVec 32) : Machine Conn Who where
  init := ConnBoot
  step := ConnStep H m

end Machine

section Invariant
variable {H : Host} {m : BitVec 32} {c c' : Conn} {j : ℕ}

def Conn.stream (H : Host) (c : Conn) : List Byte :=
  if c.sent = 0 then []
  else if c.sent = 1 then intBytes H.int
  else intBytes H.int ++ keyBytes c.k

structure Held (H : Host) (c : Conn) (j : ℕ) : Prop where
  key : c.k j ≠ 0
  initialized : c.shmid j ∈ c.initialized
  found : ∃ s, c.ipc.find (c.k j) = some s ∧ s.id = c.shmid j ∧ segmentSize H.int c.M j ≤ s.size

def ServerAt.Reached (c : Conn) : ServerAt → Prop
  | .accept => c.created = 0 ∧ c.sent = 0
  | .recvM => c.created = 0 ∧ c.sent = 0
  | .sendN => c.created = 0 ∧ c.sent = 0
  | .get i => c.created = i ∧ i < 3 ∧ c.sent = 1
  | .sendKeys => c.created = 3 ∧ c.sent = 1
  | .running => c.created = 3 ∧ c.sent = 2
  | .gone => c.sent ≤ 2 ∧ (c.sent = 2 → c.created = 3)

structure ServerInv (H : Host) (m : BitVec 32) (c : Conn) : Prop where
  reached : c.server.Reached c
  held : ∀ j < c.created, Held H c j
  initialized : ∀ id ∈ c.initialized, id < c.ipc.next
  asked : c.client ≠ .gone → 0 < c.sent ∨ c.server = .sendN → c.M = m
  waits : c.client = .sendM → c.toServer = [] ∧
    (c.server = .accept ∨ c.server = .recvM ∨ c.server = .gone)
  told : c.client ≠ .gone → c.client ≠ .sendM → c.server = .accept ∨ c.server = .recvM →
    c.toServer = intBytes m

structure Shared (H : Host) (c : Conn) : Prop where
  N : c.N = H.int
  sent : c.sent = 2
  keys : ∀ j < 3, c.clientK j = c.k j
  ids : ∀ j < c.attached, c.clientShmid j = c.shmid j

structure Private (H : Host) (c : Conn) : Prop where
  N : c.N = H.int
  gone : c.server = .gone
  sent : c.sent = 1
  keys : ∀ j, c.clientK j = 0
  new : ∀ j < c.attached, c.clientShmid j < c.ipc.next ∧ c.clientShmid j ∉ c.initialized
  distinct : ∀ j < c.attached, ∀ l < j, c.clientShmid l ≠ c.clientShmid j

structure Lost (c : Conn) : Prop where
  N : c.N = 0
  gone : c.server = .gone
  keys : ∀ j, c.clientK j = 0
  attached : c.attached = 0

structure Unread (H : Host) (c : Conn) : Prop where
  N : c.N = 0
  keys : ∀ j, c.clientK j = 0
  attached : c.attached = 0
  toClient : c.toClient = c.stream H

def ClientAt.Reached (H : Host) (c : Conn) : ClientAt → Prop
  | .sendM => Unread H c
  | .recvN => Unread H c
  | .recvKeys => (∀ j, c.clientK j = 0) ∧ c.attached = 0 ∧
    (c.N = H.int ∧ 0 < c.sent ∧ c.toClient = (c.stream H).drop 4 ∨
      c.N = 0 ∧ c.server = .gone ∧ c.toClient = [])
  | .get i => c.attached = i ∧ i < 3 ∧ (Shared H c ∨ Private H c ∨ Lost c)
  | .running => c.attached = 3 ∧ (Shared H c ∨ Private H c ∨ Lost c)
  | .gone => True

theorem length_intBytes (x : BitVec 32) : (intBytes x).length = 4 := rfl

theorem length_keyBytes (k : ℕ → Key) : (keyBytes k).length = 12 := rfl

theorem client_of_server (h : c.client.Reached H c) (hserver : c.server ≠ .gone)
    (hsent : c.sent < 2) (hle : c.sent ≤ c'.sent) {x : List Byte}
    (hstream : c'.stream H = c.stream H ++ x) (hto : c'.toClient = c.toClient ++ x)
    (hclient : c'.client = c.client) (hN : c'.N = c.N) (hkeys : c'.clientK = c.clientK)
    (hattached : c'.attached = c.attached) : c'.client.Reached H c' := by
  rw [hclient]
  have hunread (h : Unread H c) : Unread H c' :=
    ⟨hN.trans h.N, hkeys ▸ h.keys, hattached.trans h.attached, by rw [hto, hstream, h.toClient]⟩
  have hattach (h : Shared H c ∨ Private H c ∨ Lost c) : False := by
    rcases h with h | h | h
    · exact Nat.ne_of_lt hsent h.sent
    · exact hserver h.gone
    · exact hserver h.gone
  cases hc : c.client with
  | sendM => rw [hc] at h; exact hunread h
  | recvN => rw [hc] at h; exact hunread h
  | recvKeys =>
    rw [hc] at h
    obtain ⟨hk, ha, ⟨hn, hpos, hdrop⟩ | ⟨-, hgone, -⟩⟩ := h
    · have hone : c.sent = 1 := by omega
      have hlen : (c.stream H).length = 4 := by simp [Conn.stream, hone, length_intBytes]
      refine ⟨hkeys ▸ hk, hattached.trans ha, .inl ⟨hN.trans hn, Nat.lt_of_lt_of_le hpos hle, ?_⟩⟩
      rw [hto, hstream, hdrop, List.drop_append_of_le_length (Nat.le_of_eq hlen.symm)]
    · exact absurd hgone hserver
  | get i => rw [hc] at h; exact (hattach h.2.2).elim
  | running => rw [hc] at h; exact (hattach h.2).elim
  | gone => trivial

theorem Held.call (h : Held H c j) {ipc : Ipc} {key : Key} {size id : ℕ} {creat excl : Bool}
    (hcall : c.ipc.call key size creat excl = some (id, ipc))
    (hk : c'.k j = c.k j) (hid : c'.shmid j = c.shmid j) (hM : c'.M = c.M) (hipc : c'.ipc = ipc)
    (hinit : c.initialized ⊆ c'.initialized) : Held H c' j := by
  obtain ⟨s, hs, hsid, hsize⟩ := h.found
  refine ⟨hk ▸ h.key, hid ▸ hinit h.initialized, s, ?_, hsid.trans hid.symm, hM ▸ hsize⟩
  rw [hk, hipc]
  exact call_keeps hcall h.key hs

theorem Held.frame (h : Held H c j) (hk : c'.k j = c.k j) (hid : c'.shmid j = c.shmid j)
    (hM : c'.M = c.M) (hipc : c'.ipc = c.ipc) (hinit : c'.initialized = c.initialized) :
    Held H c' j := by
  obtain ⟨s, hs, hsid, hsize⟩ := h.found
  exact ⟨hk ▸ h.key, by rw [hid, hinit]; exact h.initialized, s, by rw [hk, hipc, hs],
    hsid.trans hid.symm, hM ▸ hsize⟩

structure ConnInv (H : Host) (m : BitVec 32) (c : Conn) : Prop where
  server : ServerInv H m c
  client : c.client.Reached H c

theorem conn_boot (h : ConnBoot c) : ConnInv H m c where
  server :=
    { reached := by rw [h.server]; exact ⟨h.created, h.sent⟩
      held := fun j hj => absurd hj (by rw [h.created]; exact Nat.not_lt_zero j)
      initialized := by rw [h.initialized]; exact List.forall_mem_nil _
      asked := fun _ hsent => by rw [h.sent, h.server] at hsent; simp at hsent
      waits := fun _ => ⟨h.toServer, .inl h.server⟩
      told := fun _ hne => absurd h.client hne }
  client := by
    rw [h.client]
    exact ⟨h.N, h.clientK, h.attached, by rw [h.toClient, Conn.stream, if_pos h.sent]⟩

theorem none_held (hcr : c.created = 0) : ∀ j < c.created, Held H c' j :=
  fun j hj => absurd hj (by rw [hcr]; exact Nat.not_lt_zero j)

theorem held_created {key : Key} {id : ℕ} {ipc : Ipc} {excl : Bool} (hkey : key ≠ 0)
    (h : ∀ j < c.created, Held H c j)
    (hcall : c.ipc.call key (segmentSize H.int c.M c.created) true excl = some (id, ipc))
    (hk : c'.k = Function.update c.k c.created key)
    (hid : c'.shmid = Function.update c.shmid c.created id) (hM : c'.M = c.M)
    (hipc : c'.ipc = ipc) (hinit : c'.initialized = id :: c.initialized) :
    ∀ j < c.created + 1, Held H c' j := by
  intro j hj
  rcases Nat.lt_succ_iff_lt_or_eq.mp hj with hlt | rfl
  · have hne := Nat.ne_of_lt hlt
    have hsub : c.initialized ⊆ c'.initialized := hinit ▸ List.subset_cons_self _ _
    exact (h j hlt).call hcall (by rw [hk, Function.update_of_ne hne])
      (by rw [hid, Function.update_of_ne hne]) hM hipc hsub
  · obtain ⟨s, hs, hsid, hsize⟩ := call_held hkey hcall
    have hown : c'.k c.created = key := by rw [hk, Function.update_self]
    have hnew : c'.shmid c.created = id := by rw [hid, Function.update_self]
    refine ⟨hown ▸ hkey, ?_, s, ?_, hnew ▸ hsid, hM ▸ hsize⟩
    · rw [hnew, hinit]
      exact List.mem_cons_self
    · rw [hown, hipc]
      exact hs

theorem ServerInv.answered (h : ServerInv H m c) {pc : ServerAt} (hs : c.server = pc)
    (hpast : pc ≠ .accept ∧ pc ≠ .recvM ∧ pc ≠ .gone) : c.client ≠ .sendM := by
  subst hs
  intro hc
  obtain ⟨-, hpc | hpc | hpc⟩ := h.waits hc
  · exact hpast.1 hpc
  · exact hpast.2.1 hpc
  · exact hpast.2.2 hpc

theorem ServerInv.recvM (h : ServerInv H m c) {M : BitVec 32} (hs : c.server = .recvM)
    (hread : c.toServer ≠ [] ∧ M = storeBytes c.M (c.toServer.take 4) ∨
      c.toServer = [] ∧ c.client = .gone ∧ M = c.M) :
    (c.client ≠ .gone → M = m) ∧ c.client ≠ .sendM := by
  rcases hread with ⟨hto, rfl⟩ | ⟨-, hgone, -⟩
  · have hsend : c.client ≠ .sendM := fun hc => hto (h.waits hc).1
    refine ⟨fun hne => ?_, hsend⟩
    rw [h.told hne hsend (.inr hs)]
    exact storeBytes_intBytes _ _
  · exact ⟨fun hne => absurd hgone hne, by rw [hgone]; nofun⟩

theorem server_step (hftok : ∀ a < 100, H.ftok a ≠ 0) (h : ServerInv H m c)
    (hstep : ConnStep H m c .server c') : ServerInv H m c' := by
  have hr := h.reached
  cases hstep with
  | accept hs =>
    rw [hs] at hr
    obtain ⟨hcr, hse⟩ : c.created = 0 ∧ c.sent = 0 := hr
    refine ⟨?_, none_held hcr, h.initialized, fun _ hsent => ?_, fun hc => ⟨(h.waits hc).1, ?_⟩,
      fun hne hc _ => h.told hne hc (.inl hs)⟩
    · dsimp only
      split_ifs
      · exact ⟨hcr, hse⟩
      · exact ⟨by simp [hse], by simp [hse]⟩
    · dsimp only at hsent
      split_ifs at hsent <;> simp [hse] at hsent
    · dsimp only
      split_ifs <;> simp
  | recvM hs hread =>
    rw [hs] at hr
    obtain ⟨hcr, hse⟩ : c.created = 0 ∧ c.sent = 0 := hr
    obtain ⟨hM, hsend⟩ := h.recvM hs hread
    refine ⟨?_, none_held hcr, h.initialized, fun hne _ => hM hne, fun hc => absurd hc hsend,
      fun _ _ hs' => ?_⟩
    · dsimp only
      split_ifs
      · exact ⟨hcr, hse⟩
      · exact ⟨by simp [hse], by simp [hse]⟩
    · dsimp only at hs'
      split_ifs at hs' <;> simp at hs'
  | sendN hs hne =>
    rw [hs] at hr
    obtain ⟨hcr, hse⟩ : c.created = 0 ∧ c.sent = 0 := hr
    exact ⟨⟨hcr, Nat.zero_lt_succ 2, rfl⟩, none_held hcr, h.initialized,
      fun hne _ => h.asked hne (.inr hs), fun hc => absurd hc (h.answered hs ⟨nofun, nofun, nofun⟩),
      fun _ _ hs' => by simp at hs'⟩
  | sendNBroken hs hgone =>
    rw [hs] at hr
    obtain ⟨hcr, hse⟩ : c.created = 0 ∧ c.sent = 0 := hr
    exact ⟨⟨by simp [hse], by simp [hse]⟩, none_held hcr, h.initialized,
      fun hne _ => absurd hgone hne, fun hc => by simp [hgone] at hc, fun hne => absurd hgone hne⟩
  | @created i id ipc hs hcall =>
    rw [hs] at hr
    obtain ⟨rfl, hi, hse⟩ : c.created = i ∧ i < 3 ∧ c.sent = 1 := hr
    have hkey : drawKey H.ftok H.rand c.pos ≠ 0 := hftok _ (Nat.mod_lt _ (by decide))
    have hnext := call_next hcall
    refine ⟨?_, held_created hkey h.held hcall rfl rfl rfl rfl rfl, fun x hx => ?_,
      fun hne _ => h.asked hne (.inl (by omega)),
      fun hc => absurd hc (h.answered hs ⟨nofun, nofun, nofun⟩), fun _ _ hs' => ?_⟩
    · dsimp only
      split_ifs with h2
      · exact ⟨rfl, by omega, hse⟩
      · exact ⟨by dsimp only; omega, hse⟩
    · rcases List.mem_cons.mp hx with rfl | hx
      · exact hnext.2
      · exact Nat.lt_of_lt_of_le (h.initialized x hx) hnext.1
    · dsimp only at hs'
      split_ifs at hs' <;> simp at hs'
  | @drawAgain i hs hcall =>
    rw [hs] at hr
    obtain ⟨hcr, hi, hse⟩ : c.created = i ∧ i < 3 ∧ c.sent = 1 := hr
    refine ⟨by rw [hs]; exact ⟨hcr, hi, hse⟩, fun j hj => ?_, h.initialized, h.asked, h.waits, h.told⟩
    have hne : j ≠ i := Nat.ne_of_lt (hcr ▸ hj)
    exact (h.held j hj).frame (Function.update_of_ne hne _ _) rfl rfl rfl rfl
  | sendKeys hs hne =>
    rw [hs] at hr
    obtain ⟨hcr, hse⟩ : c.created = 3 ∧ c.sent = 1 := hr
    have hM := h.asked hne (.inl (by omega))
    refine ⟨?_, fun j hj => (h.held j hj).frame rfl rfl rfl rfl rfl, h.initialized, fun _ _ => hM,
      fun hc => absurd hc (h.answered hs ⟨nofun, nofun, nofun⟩), fun _ _ hs' => ?_⟩
    · dsimp only
      split_ifs
      · exact ⟨hcr, rfl⟩
      · exact ⟨Nat.le_refl 2, fun _ => hcr⟩
    · dsimp only at hs'
      split_ifs at hs' <;> simp at hs'
  | sendKeysBroken hs hgone =>
    rw [hs] at hr
    obtain ⟨hcr, hse⟩ : c.created = 3 ∧ c.sent = 1 := hr
    exact ⟨⟨by simp [hse], by simp [hse]⟩, fun j hj => (h.held j hj).frame rfl rfl rfl rfl rfl,
      h.initialized, fun hne _ => absurd hgone hne, fun hc => by simp [hgone] at hc,
      fun hne => absurd hgone hne⟩

theorem reached_sent (h : c.server.Reached c) : c.sent ≤ 2 ∧ (c.sent = 2 → c.created = 3) := by
  cases hs : c.server with
  | gone => rw [hs] at h; exact h
  | get i =>
    rw [hs] at h
    obtain ⟨-, -, h1⟩ : c.created = i ∧ i < 3 ∧ c.sent = 1 := h
    omega
  | running =>
    rw [hs] at h
    obtain ⟨h1, h2⟩ : c.created = 3 ∧ c.sent = 2 := h
    omega
  | sendKeys =>
    rw [hs] at h
    obtain ⟨-, h1⟩ : c.created = 3 ∧ c.sent = 1 := h
    omega
  | _ =>
    rw [hs] at h
    have h1 : c.sent = 0 := h.2
    omega

theorem reached_frame (h : c.server.Reached c) (hs : c'.server = c.server)
    (hcreated : c'.created = c.created) (hsent : c'.sent = c.sent) : c'.server.Reached c' := by
  rw [hs]
  cases hs : c.server <;> rw [hs] at h <;> simpa only [ServerAt.Reached, hcreated, hsent] using h

theorem ServerInv.attach (h : ServerInv H m c) {i id size : ℕ} {ipc : Ipc} {key : Key}
    {client : ClientAt} (hcall : c.ipc.call key size false false = some (id, ipc))
    (hold : c.client = .get i) (hnew : client ≠ .sendM) :
    ServerInv H m (c.attach client i id ipc) where
  reached := reached_frame h.reached rfl rfl rfl
  held j hj := (h.held j hj).call hcall rfl rfl rfl rfl (List.Subset.refl _)
  initialized x hx := Nat.lt_of_lt_of_le (h.initialized x hx) (call_next hcall).1
  asked _ := h.asked (by rw [hold]; nofun)
  waits hc := absurd hc hnew
  told _ _ := h.told (by rw [hold]; nofun) (by rw [hold]; nofun)

theorem ServerInv.receive (h : ServerInv H m c) {client : ClientAt} {toClient : List Byte}
    {N : BitVec 32} {k : ℕ → Key} (hgone : c.client ≠ .gone) (hold : c.client ≠ .sendM)
    (hnew : client ≠ .sendM) : ServerInv H m { c with
      client := client, N := N, clientK := k, toClient := toClient } where
  reached := reached_frame h.reached rfl rfl rfl
  held j hj := (h.held j hj).frame rfl rfl rfl rfl rfl
  initialized := h.initialized
  asked _ := h.asked hgone
  waits hc := absurd hc hnew
  told _ _ := h.told hgone hold

theorem ServerInv.leaves (h : ServerInv H m c) : ServerInv H m { c with client := .gone } where
  reached := reached_frame h.reached rfl rfl rfl
  held j hj := (h.held j hj).frame rfl rfl rfl rfl rfl
  initialized := h.initialized
  asked hne := absurd rfl hne
  waits := nofun
  told hne := absurd rfl hne

theorem ServerInv.interrupt (h : ServerInv H m c) : ServerInv H m { c with server := .gone } where
  reached := by
    have := reached_sent h.reached
    exact this
  held j hj := (h.held j hj).frame rfl rfl rfl rfl rfl
  initialized := h.initialized
  asked hne hsent := h.asked hne (.inl (by simpa using hsent))
  waits hc := ⟨(h.waits hc).1, .inr (.inr rfl)⟩
  told _ _ := by simp

theorem server_inv_step (hftok : ∀ a < 100, H.ftok a ≠ 0) {w : Who} (h : ServerInv H m c)
    (hstep : ConnStep H m c w c') : ServerInv H m c' := by
  cases w with
  | server => exact server_step hftok h hstep
  | signal =>
    cases hstep with
    | interrupt _ => exact h.interrupt
    | kill _ => exact h.leaves
  | client =>
    cases hstep with
    | sendM hc hs =>
      exact ⟨reached_frame h.reached rfl rfl rfl,
        fun j hj => (h.held j hj).frame rfl rfl rfl rfl rfl, h.initialized,
        fun _ => h.asked (by rw [hc]; nofun), nofun, fun _ _ _ => rfl⟩
    | sendMBroken hc hs => exact h.leaves
    | recvN hc _ => exact h.receive (by rw [hc]; nofun) (by rw [hc]; nofun) nofun
    | recvKeys hc _ => exact h.receive (by rw [hc]; nofun) (by rw [hc]; nofun) nofun
    | attach hc hcall => exact h.attach hcall hc (by split_ifs <;> nofun)
    | attachFailed hc hcall => exact h.leaves

theorem stream_pos (h : 0 < c.sent) : ∃ rest, c.stream H = intBytes H.int ++ rest := by
  simp only [Conn.stream, if_neg (Nat.ne_of_gt h)]
  split_ifs
  · exact ⟨[], (List.append_nil _).symm⟩
  · exact ⟨_, rfl⟩

theorem stream_two (h : c.sent = 2) : c.stream H = intBytes H.int ++ keyBytes c.k := by
  simp [Conn.stream, h]

theorem client_recvN (hu : Unread H c) {N : BitVec 32}
    (hread : c.toClient ≠ [] ∧ N = storeBytes c.N (c.toClient.take 4) ∨
      c.toClient = [] ∧ c.server = .gone ∧ N = c.N) :
    ClientAt.Reached H { c with client := .recvKeys, N := N, toClient := c.toClient.drop 4 }
      .recvKeys := by
  refine ⟨hu.keys, hu.attached, ?_⟩
  rcases hread with ⟨hto, rfl⟩ | ⟨hto, hgone, rfl⟩
  · have hpos : 0 < c.sent := by
      by_contra hno
      exact hto (hu.toClient.trans (by simp [Conn.stream, Nat.eq_zero_of_not_pos hno]))
    obtain ⟨rest, hrest⟩ := stream_pos (H := H) hpos
    refine .inl ⟨?_, hpos, ?_⟩
    · rw [hu.toClient, hrest]
      exact storeBytes_intBytes c.N H.int
    · rw [hu.toClient]
      rfl
  · exact .inr ⟨hu.N, hgone, by rw [hto]; rfl⟩

theorem client_recvKeys (h : ServerInv H m c) (hr : ClientAt.Reached H c .recvKeys) {k : ℕ → Key}
    (hread : c.toClient ≠ [] ∧ k = storeKeys c.clientK (c.toClient.take 12) ∨
      c.toClient = [] ∧ c.server = .gone ∧ k = c.clientK) :
    ClientAt.Reached H { c with client := .get 0, clientK := k, toClient := c.toClient.drop 12 }
      (.get 0) := by
  obtain ⟨hkeys, hattached, hcase⟩ := hr
  refine ⟨hattached, Nat.zero_lt_succ 2, ?_⟩
  have hnone {j : ℕ} : ¬ j < c.attached := by rw [hattached]; exact Nat.not_lt_zero j
  rcases hcase with ⟨hN, hpos, hto⟩ | ⟨hN, hgone, hto⟩
  · rcases hread with ⟨hne, rfl⟩ | ⟨hnil, hgone, rfl⟩
    · have htwo : c.sent = 2 := by
        have hle := (reached_sent h.reached).1
        by_contra hno
        have hone : c.sent = 1 := by omega
        exact hne (hto.trans (by simp [Conn.stream, hone, intBytes]))
      rw [stream_two htwo, List.drop_left' (length_intBytes _)] at hto
      refine .inl ⟨hN, htwo, fun j hj => ?_, fun j hj => absurd hj hnone⟩
      dsimp only
      rw [hto, List.take_of_length_le (Nat.le_of_eq (length_keyBytes _))]
      exact storeKeys_keyBytes _ _ hj
    · have hone : c.sent = 1 := by
        have hle := (reached_sent h.reached).1
        by_contra hno
        have htwo : c.sent = 2 := by omega
        rw [stream_two htwo, List.drop_left' (length_intBytes _), hnil] at hto
        cases hto
      exact .inr (.inl ⟨hN, hgone, hone, hkeys, fun j hj => absurd hj hnone,
        fun j hj => absurd hj hnone⟩)
  · rcases hread with ⟨hne, -⟩ | ⟨-, -, rfl⟩
    · exact absurd hto hne
    · exact .inr (.inr ⟨hN, hgone, hkeys, hattached⟩)

theorem segmentSize_zero : segmentSize 0 m 0 = 0 := by simp [segmentSize, sizeT]

theorem client_attach (h : ServerInv H m c) {i id : ℕ} {ipc : Ipc} (hc : c.client = .get i)
    (hr : ClientAt.Reached H c (.get i))
    (hcall : c.ipc.call (c.clientK i) (segmentSize c.N m i) false false = some (id, ipc))
    (client : ClientAt) : Shared H (c.attach client i id ipc) ∨
      Private H (c.attach client i id ipc) ∨ Lost (c.attach client i id ipc) := by
  obtain ⟨rfl, hi, hcase⟩ := hr
  rcases hcase with hs | hp | hl
  · left
    have hcreated := (reached_sent h.reached).2 hs.sent
    have hM := h.asked (by rw [hc]; nofun) (.inl (by rw [hs.sent]; decide))
    have hheld := h.held c.attached (by omega)
    obtain ⟨seg, hfind, hid, hsize⟩ := hheld.found
    have hfound : c.ipc.call (c.k c.attached) (segmentSize H.int c.M c.attached) false false =
        some (seg.id, c.ipc) := call_found hheld.key hfind hsize
    rw [hs.N, hs.keys _ hi, ← hM, hfound] at hcall
    cases hcall
    refine ⟨hs.N, hs.sent, hs.keys, fun j hj => ?_⟩
    rcases Nat.lt_succ_iff_lt_or_eq.mp hj with hlt | rfl
    · exact (Function.update_of_ne (Nat.ne_of_lt hlt) _ _).trans (hs.ids j hlt)
    · exact (Function.update_self ..).trans hid
  · right; left
    rw [hp.keys] at hcall
    obtain ⟨-, rfl, rfl⟩ := call_private hcall
    have hsame {j : ℕ} (hj : j < c.attached) :
        Function.update c.clientShmid c.attached c.ipc.next j = c.clientShmid j :=
      Function.update_of_ne (Nat.ne_of_lt hj) _ _
    refine ⟨hp.N, hp.gone, hp.sent, hp.keys, fun j hj => ?_, fun j hj l hl => ?_⟩
    · simp only [Conn.attach]
      rcases Nat.lt_succ_iff_lt_or_eq.mp hj with hlt | rfl
      · rw [hsame hlt]
        exact ⟨Nat.lt_succ_of_lt (hp.new j hlt).1, (hp.new j hlt).2⟩
      · rw [Function.update_self]
        exact ⟨Nat.lt_succ_self _, fun hmem => Nat.lt_irrefl _ (h.initialized _ hmem)⟩
    · simp only [Conn.attach]
      rcases Nat.lt_succ_iff_lt_or_eq.mp hj with hlt | rfl
      · rw [hsame hlt, hsame (Nat.lt_trans hl hlt)]
        exact hp.distinct j hlt l hl
      · rw [Function.update_self, hsame hl]
        exact Nat.ne_of_lt (hp.new l hl).1
  · have hzero : c.attached = 0 := hl.attached
    rw [hl.keys, hl.N, hzero, segmentSize_zero] at hcall
    exact absurd (call_private hcall).1 (Nat.lt_irrefl 0)

theorem client_interrupt (h : c.client.Reached H c) :
    c.client.Reached H { c with server := .gone } := by
  cases hc : c.client with
  | sendM => rw [hc] at h; exact ⟨h.N, h.keys, h.attached, h.toClient⟩
  | recvN => rw [hc] at h; exact ⟨h.N, h.keys, h.attached, h.toClient⟩
  | recvKeys =>
    rw [hc] at h
    obtain ⟨hk, ha, hread | ⟨hN, -, hto⟩⟩ := h
    · exact ⟨hk, ha, .inl hread⟩
    · exact ⟨hk, ha, .inr ⟨hN, rfl, hto⟩⟩
  | get i =>
    rw [hc] at h
    obtain ⟨ha, hi, hs | hp | hl⟩ := h
    · exact ⟨ha, hi, .inl ⟨hs.N, hs.sent, hs.keys, hs.ids⟩⟩
    · exact ⟨ha, hi, .inr (.inl ⟨hp.N, rfl, hp.sent, hp.keys, hp.new, hp.distinct⟩)⟩
    · exact ⟨ha, hi, .inr (.inr ⟨hl.N, rfl, hl.keys, hl.attached⟩)⟩
  | running =>
    rw [hc] at h
    obtain ⟨ha, hs | hp | hl⟩ := h
    · exact ⟨ha, .inl ⟨hs.N, hs.sent, hs.keys, hs.ids⟩⟩
    · exact ⟨ha, .inr (.inl ⟨hp.N, rfl, hp.sent, hp.keys, hp.new, hp.distinct⟩)⟩
    · exact ⟨ha, .inr (.inr ⟨hl.N, rfl, hl.keys, hl.attached⟩)⟩
  | gone => trivial

theorem client_inv_step {w : Who} (hi : ConnInv H m c) (hstep : ConnStep H m c w c') :
    c'.client.Reached H c' := by
  obtain ⟨h, hcl⟩ := hi
  have hr := h.reached
  cases hstep with
  | accept hs =>
    rw [hs] at hr
    have hse : c.sent = 0 := hr.2
    exact client_of_server hcl (by rw [hs]; nofun) (by omega) (Nat.le_refl _)
      (List.append_nil _).symm (List.append_nil _).symm rfl rfl rfl rfl
  | recvM hs _ =>
    rw [hs] at hr
    have hse : c.sent = 0 := hr.2
    exact client_of_server hcl (by rw [hs]; nofun) (by omega) (Nat.le_refl _)
      (List.append_nil _).symm (List.append_nil _).symm rfl rfl rfl rfl
  | sendN hs _ =>
    rw [hs] at hr
    have hse : c.sent = 0 := hr.2
    refine client_of_server hcl (by rw [hs]; nofun) (by omega) (by dsimp only; omega) ?_ rfl rfl rfl
      rfl rfl
    simp [Conn.stream, hse]
  | sendNBroken _ hgone => dsimp only; rw [hgone]; trivial
  | created hs _ =>
    rw [hs] at hr
    have hse : c.sent = 1 := hr.2.2
    refine client_of_server hcl (by rw [hs]; nofun) (by omega) (Nat.le_refl _) ?_
      (List.append_nil _).symm rfl rfl rfl rfl
    simp [Conn.stream, hse]
  | drawAgain hs _ =>
    rw [hs] at hr
    have hse : c.sent = 1 := hr.2.2
    refine client_of_server hcl (by rw [hs]; nofun) (by omega) (Nat.le_refl _) ?_
      (List.append_nil _).symm rfl rfl rfl rfl
    simp [Conn.stream, hse]
  | sendKeys hs _ =>
    rw [hs] at hr
    have hse : c.sent = 1 := hr.2
    refine client_of_server hcl (by rw [hs]; nofun) (by omega) (by dsimp only; omega) ?_ rfl rfl rfl
      rfl rfl
    simp [Conn.stream, hse]
  | sendKeysBroken _ hgone => dsimp only; rw [hgone]; trivial
  | interrupt _ => exact client_interrupt hcl
  | sendM hc _ =>
    rw [hc] at hcl
    exact ⟨hcl.N, hcl.keys, hcl.attached, hcl.toClient⟩
  | sendMBroken _ _ => trivial
  | recvN hc hread =>
    rw [hc] at hcl
    exact client_recvN hcl hread
  | recvKeys hc hread =>
    rw [hc] at hcl
    exact client_recvKeys h hcl hread
  | @attach i id ipc hc hcall =>
    rw [hc] at hcl
    have hi := hcl.2.1
    have hcase := client_attach h hc hcl hcall
    by_cases h2 : i < 2
    · simp only [if_pos h2]
      exact ⟨rfl, by omega, hcase _⟩
    · simp only [if_neg h2]
      obtain rfl : i = 2 := by omega
      split_ifs
      · exact ⟨rfl, hcase _⟩
      · trivial
  | attachFailed _ _ => trivial
  | kill _ => trivial

theorem conn_reachable (hftok : ∀ a < 100, H.ftok a ≠ 0) (hs : (connection H m).Reachable c) :
    ConnInv H m c :=
  hs.invariant (fun _ h => conn_boot h) fun _ _ _ _ h hstep =>
    ⟨server_inv_step hftok h.server hstep, client_inv_step h hstep⟩

end Invariant

end Guess
