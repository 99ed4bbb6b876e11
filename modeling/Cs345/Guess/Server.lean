import Mathlib
import Cs345.Guess.Segments

namespace Guess

section SizeT
variable {x M : BitVec 32}

def sizeT (x : BitVec 32) : ℕ := (x.signExtend 64).toNat

theorem toInt_sizeT (x : BitVec 32) : (x.signExtend 64).toInt = x.toInt :=
  BitVec.toInt_signExtend_of_le (by decide)

theorem sizeT_of_nonneg (h : 0 ≤ x.toInt) : (sizeT x : Int) = x.toInt := by
  rw [← toInt_sizeT, BitVec.toInt_eq_toNat_cond] at h ⊢
  rw [sizeT]
  split <;> omega

theorem sizeT_of_neg (h : x.toInt < 0) : 2 ^ 63 ≤ sizeT x := by
  rw [← toInt_sizeT, BitVec.toInt_eq_toNat_cond] at h
  rw [sizeT]
  omega

theorem sizeT_ofNat {n : ℕ} (h : n < 2 ^ 31) : sizeT (BitVec.ofNat 32 n) = n := by
  have hint : (BitVec.ofNat 32 n).toInt = n := by
    rw [BitVec.toInt_eq_toNat_cond, BitVec.toNat_ofNat]
    omega
  have hsize := sizeT_of_nonneg (x := BitVec.ofNat 32 n) (by omega)
  omega

theorem two_mul_of_lt (h0 : 0 < M.toInt) (hlt : M.toInt < 2 ^ 30) :
    (2#32 * M).toInt = 2 * M.toInt := by
  have := M.isLt
  rw [BitVec.toInt_eq_toNat_cond] at h0 hlt ⊢
  rw [BitVec.toInt_eq_toNat_cond, BitVec.toNat_mul, BitVec.toNat_ofNat]
  omega

theorem two_mul_of_le (h : 2 ^ 30 ≤ M.toInt) : (2#32 * M).toInt < 0 := by
  have := M.isLt
  rw [BitVec.toInt_eq_toNat_cond] at h
  rw [BitVec.toInt_eq_toNat_cond, BitVec.toNat_mul, BitVec.toNat_ofNat]
  omega

end SizeT

section Handshake

inductive Recv where
  | failed
  | gone
  | received (bytes : List (BitVec 8)) (length : 1 ≤ bytes.length ∧ bytes.length ≤ 4)

def storeBytes (M : BitVec 32) : List (BitVec 8) → BitVec 32
  | [] => M
  | [b0] => M.extractLsb' 8 24 ++ b0
  | [b0, b1] => M.extractLsb' 16 16 ++ b1 ++ b0
  | [b0, b1, b2] => M.extractLsb' 24 8 ++ b2 ++ b1 ++ b0
  | b0 :: b1 :: b2 :: b3 :: _ => b3 ++ b2 ++ b1 ++ b0

def Recv.store (M : BitVec 32) : Recv → BitVec 32
  | .received bytes _ => storeBytes M bytes
  | _ => M

def Recv.asked : Recv → Option (BitVec 32)
  | .received [b0, b1, b2, b3] _ => some (b3 ++ b2 ++ b1 ++ b0)
  | _ => none

theorem store_asked {r : Recv} {m : BitVec 32} (h : r.asked = some m) (M : BitVec 32) :
    r.store M = m := by
  match r, h with
  | .received [b0, b1, b2, b3] _, h => exact Option.some.inj h

structure Handshake where
  recv : Recv
  sendN : Bool
  sendKeys : Bool
  attached : Fin 3 → Bool

end Handshake

section Session

structure Host where
  N : ℕ
  memory : ℕ
  ftok : ℕ → Key
  rand : ℕ → ℕ
  N_pos : 0 < N
  N_lt : N < 2 ^ 31
  memory_lt : memory < 2 ^ 63
  ftok_injective : ∀ a b, a < 100 → b < 100 → ftok a = ftok b → a = b
  rand_varies : ∀ pos a b, ∃ n, pos ≤ n ∧ rand n % 100 ≠ a ∧ rand n % 100 ≠ b

structure Server where
  M : BitVec 32
  threadNo : ℕ
  ipc : Ipc
  pos : ℕ

inductive Outcome where
  | returned (created : ℕ) (srv : Server)
  | exited
  | crashed
  | looping

def sizeofPthread : ℕ := 8

variable (H : Host)

def Host.calloc (nmemb size : ℕ) : Bool := nmemb * size ≤ H.memory

theorem remove_fresh (ipc : Ipc) (id : ℕ) :
    ∀ s ∈ ipc.segments.filter (·.id ≠ id), s.id < ipc.next :=
  fun s hs => ipc.fresh s (List.mem_filter.mp hs).1

-- shmctl(id, IPC_RMID, NULL): an attached segment is gone with its last detach, until when a
-- second call finds it
def Ipc.remove (ipc : Ipc) (id : ℕ) (attached : Bool) : Option Ipc :=
  if ipc.segments.any (·.id = id) then
    some ⟨ipc.segments.filter (·.id ≠ id), if attached then id :: ipc.marked else ipc.marked,
      ipc.next, remove_fresh ipc id⟩
  else if attached ∧ id ∈ ipc.marked then some ipc
  else none

def removeSegments (attached : Fin 3 → Bool) (r : Segments) : Option Ipc :=
  (r.third.ipc.remove r.first.id (attached 0)).bind fun ipc =>
  (ipc.remove r.second.id (attached 1)).bind fun ipc => ipc.remove r.third.id (attached 2)

-- one pass through the loop of main, from accept; `looping` within `fuel` draws of a key
def session (fuel : ℕ) (srv : Server) (h : Handshake) : Outcome :=
  if H.calloc 1 (sizeT (BitVec.ofNat 32 (H.N + 1))) then
    let M := h.recv.store srv.M
    if H.calloc (sizeT (2#32 * M)) sizeofInt then
      if h.sendN then
        match createSharedMemory H.ftok H.rand H.N M fuel (srv.pos + H.N) srv.ipc with
        | none => .looping
        | some r =>
          if h.sendKeys then
            if H.calloc (sizeT M) sizeofPthread then
              match removeSegments h.attached r with
              | none => .exited
              | some ipc => .returned M.toInt.toNat ⟨M, 0, ipc, r.third.pos⟩
            else .exited
          else .exited
      else .exited
    else .exited
  else .crashed

end Session

section Meets
variable {H : Host} {srv srv' : Server} {h : Handshake} {fuel created : ℕ} {M m : BitVec 32}
  {ipc ipc' : Ipc} {r : Segments} {a : Acquired}

def Handshake.workers (h : Handshake) : ℕ :=
  match h.recv.asked with
  | some M => M.toInt.toNat
  | none => 0

def Meets (H : Host) (srv : Server) (h : Handshake) : Prop :=
  ∃ fuel created srv', session H fuel srv h = .returned created srv' ∧
    created = h.workers ∧ srv'.threadNo = 0 ∧ srv'.ipc.segments = []

def Survives (H : Host) : Server → List Handshake → Prop
  | _, [] => True
  | srv, h :: hs => Meets H srv h ∧
    ∀ fuel created srv', session H fuel srv h = .returned created srv' → Survives H srv' hs

structure Affordable (H : Host) (M : BitVec 32) : Prop where
  pos : 0 < M.toInt
  lt : M.toInt < 2 ^ 30
  memory : 8 * M.toInt ≤ H.memory

structure Good (H : Host) (h : Handshake) : Prop where
  secret : H.N + 1 < 2 ^ 31 ∧ H.N + 1 ≤ H.memory
  sends : h.sendN = true ∧ h.sendKeys = true
  asked : ∃ M, h.recv.asked = some M ∧ Affordable H M

theorem remove_cases {id : ℕ} {attached : Bool} (h : ipc.remove id attached = some ipc') :
    ipc'.next = ipc.next ∧ ipc'.segments = ipc.segments.filter (·.id ≠ id) := by
  rw [Ipc.remove] at h
  by_cases hany : ipc.segments.any (·.id = id) = true
  · rw [if_pos hany] at h
    cases h
    exact ⟨rfl, rfl⟩
  · rw [if_neg hany] at h
    split_ifs at h
    cases h
    refine ⟨rfl, (List.filter_eq_self.mpr fun s hs => ?_).symm⟩
    by_contra hid
    exact hany (List.any_eq_true.mpr ⟨s, hs, by simpa using hid⟩)

theorem remove_segments {id : ℕ} {attached : Bool} (h : ipc.remove id attached = some ipc') :
    ipc'.segments = ipc.segments.filter (·.id ≠ id) := (remove_cases h).2

theorem exists_remove {id : ℕ} (h : ipc.Exists id) (attached : Bool) :
    ∃ ipc', ipc.remove id attached = some ipc' := by
  obtain ⟨s, hs, rfl⟩ := h
  exact ⟨_, if_pos (List.any_eq_true.mpr ⟨s, hs, by simp⟩)⟩

theorem exists_of_remove {id x : ℕ} {attached : Bool} (h : ipc.remove id attached = some ipc')
    (hx : ipc.Exists x) (hne : x ≠ id) : ipc'.Exists x := by
  obtain ⟨s, hs, rfl⟩ := hx
  refine ⟨s, ?_, rfl⟩
  rw [remove_segments h]
  exact List.mem_filter.mpr ⟨hs, by simpa using hne⟩

theorem session_returned (hs : session H fuel srv h = .returned created srv') :
    sizeT (BitVec.ofNat 32 (H.N + 1)) ≤ H.memory ∧ (h.sendN = true ∧ h.sendKeys = true) ∧
      (h.recv.store srv.M).toInt.toNat = created ∧
      sizeT (2#32 * h.recv.store srv.M) * sizeofInt ≤ H.memory ∧
      sizeT (h.recv.store srv.M) * sizeofPthread ≤ H.memory ∧
      ∃ r ipc, createSharedMemory H.ftok H.rand H.N (h.recv.store srv.M) fuel (srv.pos + H.N)
        srv.ipc = some r ∧ removeSegments h.attached r = some ipc ∧
        srv' = ⟨h.recv.store srv.M, 0, ipc, r.third.pos⟩ := by
  simp only [session] at hs
  split_ifs at hs with hsecret hsem hsend hkeys hthreads
  · cases hr : createSharedMemory H.ftok H.rand H.N (h.recv.store srv.M) fuel (srv.pos + H.N)
        srv.ipc with
    | none => simp only [hr] at hs; cases hs
    | some r =>
      simp only [hr] at hs
      cases hipc : removeSegments h.attached r with
      | none => simp only [hipc] at hs; cases hs
      | some ipc =>
        simp only [hipc] at hs
        cases hs
        simp only [Host.calloc, decide_eq_true_eq, Nat.one_mul] at hsecret hsem hthreads
        exact ⟨hsecret, ⟨hsend, hkeys⟩, rfl, hsem, hthreads, r, ipc, rfl, hipc, rfl⟩
  all_goals
    split at hs
    all_goals cases hs

theorem secret_of_calloc (h : sizeT (BitVec.ofNat 32 (H.N + 1)) ≤ H.memory) :
    H.N + 1 < 2 ^ 31 ∧ H.N + 1 ≤ H.memory := by
  have hN := H.N_lt
  have hmem := H.memory_lt
  by_cases hlt : H.N + 1 < 2 ^ 31
  · rw [sizeT_ofNat hlt] at h
    exact ⟨hlt, h⟩
  · have hmax : H.N + 1 = 2 ^ 31 := by omega
    have hneg : 2 ^ 63 ≤ sizeT (BitVec.ofNat 32 (2 ^ 31)) := sizeT_of_neg (by decide)
    rw [hmax] at h
    omega

theorem affordable_of_calloc (hM : 0 < M.toInt)
    (hsem : sizeT (2#32 * M) * sizeofInt ≤ H.memory) : Affordable H M := by
  have hmem := H.memory_lt
  simp only [sizeofInt] at hsem
  have hlt : M.toInt < 2 ^ 30 := by
    by_contra hge
    have := sizeT_of_neg (two_mul_of_le (Int.not_lt.mp hge))
    omega
  have h2 := two_mul_of_lt hM hlt
  have hsize := sizeT_of_nonneg (x := 2#32 * M) (by omega)
  exact ⟨hM, hlt, by omega⟩

theorem toInt_pos_of_returned (hs : session H fuel srv h = .returned created srv') :
    0 < (h.recv.store srv.M).toInt := by
  obtain ⟨-, -, -, -, hthreads, r, ipc, hr, -, -⟩ := session_returned hs
  have hmem := H.memory_lt
  by_contra hle
  rcases Int.lt_or_eq_of_le (Int.not_lt.mp hle) with hneg | hzero
  · have := sizeT_of_neg hneg
    simp only [sizeofPthread] at hthreads
    omega
  · have hM : h.recv.store srv.M = 0 := BitVec.eq_of_toInt_eq hzero
    rw [hM] at hr
    simp only [createSharedMemory, Option.bind_eq_some_iff, Option.map_eq_some_iff] at hr
    obtain ⟨a, -, b, -, c, hc, -⟩ := hr
    cases acquire_zero.symm.trans hc

theorem segments_of_removed (hempty : srv.ipc.segments = [])
    (hs : session H fuel srv h = .returned created srv') : srv'.ipc.segments = [] := by
  obtain ⟨-, -, -, -, -, r, ipc, hr, hipc, rfl⟩ := session_returned hs
  simp only [createSharedMemory, Option.bind_eq_some_iff, Option.map_eq_some_iff] at hr
  obtain ⟨a, ha, b, hb, c, hc, rfl⟩ := hr
  have hnone (x : ℕ) : ¬ srv.ipc.Exists x := by simp [Ipc.Exists, hempty]
  simp only [removeSegments, Option.bind_eq_some_iff] at hipc
  obtain ⟨ipc1, h1, ipc2, h2, h3⟩ := hipc
  rw [List.eq_nil_iff_forall_not_mem]
  intro s hs
  simp only [remove_segments h3, remove_segments h2, remove_segments h1, List.mem_filter] at hs
  obtain ⟨⟨⟨hs, hna⟩, hnb⟩, hnc⟩ := hs
  have hex : c.ipc.Exists s.id := ⟨s, hs, rfl⟩
  rw [Ipc.shmget_exists (acquire_shmget hc).2, Ipc.shmget_exists (acquire_shmget hb).2,
    Ipc.shmget_exists (acquire_shmget ha).2] at hex
  simp_all

theorem good_of_meets (hm : Meets H srv h) : Good H h := by
  obtain ⟨fuel, created, srv', hs, hcreated, -, -⟩ := hm
  obtain ⟨hsecret, hsends, hM, hsem, -⟩ := session_returned hs
  have hpos := toInt_pos_of_returned hs
  refine ⟨secret_of_calloc hsecret, hsends, ?_⟩
  cases hasked : h.recv.asked with
  | none =>
    simp only [Handshake.workers, hasked] at hcreated
    omega
  | some m =>
    rw [store_asked hasked] at hpos hsem
    exact ⟨m, rfl, affordable_of_calloc hpos hsem⟩

section Returns
variable {pos n k : ℕ}

theorem drawKey_ne (hne : H.rand n % 100 ≠ H.rand k % 100) :
    drawKey H.ftok H.rand n ≠ drawKey H.ftok H.rand k := fun heq =>
  hne (H.ftok_injective _ _ (Nat.mod_lt _ (by decide)) (Nat.mod_lt _ (by decide)) heq)

theorem create_returns (H : Host) (hempty : ipc.segments = []) (hM : 0 < semBytes M) (pos : ℕ) :
    ∃ fuel r, createSharedMemory H.ftok H.rand H.N M fuel pos ipc = some r := by
  have hfree (key : Key) : ipc.find key = none := by simp [Ipc.find, hempty]
  have hget1 : (ipc.shmget (drawKey H.ftok H.rand pos) H.N false).isSome = true := by
    rw [Ipc.shmget_free (hfree _) H.N_pos]
    rfl
  obtain ⟨f1, a, ha⟩ := acquire_returns (Nat.le_refl pos) hget1
  obtain ⟨⟨i, hi⟩, hgeta⟩ := acquire_shmget ha
  have hfreea {key : Key} (hkey : key ≠ a.key) : a.ipc.find key = none :=
    (Ipc.shmget_find hgeta hkey).trans (hfree key)
  obtain ⟨j, hj, hji, -⟩ := H.rand_varies a.pos (H.rand i % 100) (H.rand i % 100)
  have hget2 : (a.ipc.shmget (drawKey H.ftok H.rand j) (H.N * sizeofInt) false).isSome = true := by
    rw [Ipc.shmget_free (hfreea (hi ▸ drawKey_ne hji))
      (Nat.mul_pos H.N_pos (by decide))]
    rfl
  obtain ⟨f2, b, hb⟩ := acquire_returns hj hget2
  obtain ⟨⟨l, hl⟩, hgetb⟩ := acquire_shmget hb
  obtain ⟨n, hn, hni, hnl⟩ := H.rand_varies b.pos (H.rand i % 100) (H.rand l % 100)
  have hfreeb : b.ipc.find (drawKey H.ftok H.rand n) = none :=
    (Ipc.shmget_find hgetb (hl ▸ drawKey_ne hnl)).trans (hfreea (hi ▸ drawKey_ne hni))
  have hget3 : (b.ipc.shmget (drawKey H.ftok H.rand n) (semBytes M) true).isSome = true := by
    rw [Ipc.shmget_free hfreeb hM]
    rfl
  obtain ⟨f3, c, hc⟩ := acquire_returns hn hget3
  refine ⟨f1 + f2 + f3, ⟨a, b, c⟩, ?_⟩
  have ha' := acquire_le (show f1 ≤ f1 + f2 + f3 by omega) ha
  have hb' := acquire_le (show f2 ≤ f1 + f2 + f3 by omega) hb
  have hc' := acquire_le (show f3 ≤ f1 + f2 + f3 by omega) hc
  simp only [createSharedMemory, createFirstSharedMemory, createSecondSharedMemory,
    createThirdSharedMemory, ha', hb', hc', Option.bind_some, Option.map_some]

theorem removed_of_created (H : Host) (hempty : ipc.segments = [])
    (hr : createSharedMemory H.ftok H.rand H.N M fuel pos ipc = some r) (attached : Fin 3 → Bool) :
    ∃ ipc', removeSegments attached r = some ipc' := by
  have hisolated : Isolated ipc r :=
    (isolated_iff_two hr).mpr ((draws_of_isolated H.N_pos hr).mpr
      (isolating_of_small (by simp [hempty])))
  have hdistinct := hisolated.distinct
  simp only [List.nodup_cons, List.mem_cons, List.not_mem_nil, or_false, not_or] at hdistinct
  obtain ⟨⟨hab, hac⟩, hbc, -⟩ := hdistinct
  simp only [createSharedMemory, Option.bind_eq_some_iff, Option.map_eq_some_iff] at hr
  obtain ⟨a, ha, b, hb, c, hc, rfl⟩ := hr
  have hexa := Ipc.shmget_exists (acquire_shmget ha).2
  have hexb := Ipc.shmget_exists (acquire_shmget hb).2
  have hexc := Ipc.shmget_exists (acquire_shmget hc).2
  obtain ⟨ipc1, h1⟩ := exists_remove ((hexc a.id).mpr (.inr ((hexb a.id).mpr
    (.inr ((hexa a.id).mpr (.inl rfl)))))) (attached 0)
  obtain ⟨ipc2, h2⟩ := exists_remove (exists_of_remove h1
    ((hexc b.id).mpr (.inr ((hexb b.id).mpr (.inl rfl)))) (Ne.symm hab)) (attached 1)
  obtain ⟨ipc3, h3⟩ := exists_remove (exists_of_remove h2
    (exists_of_remove h1 ((hexc c.id).mpr (.inl rfl)) (Ne.symm hac)) (Ne.symm hbc)) (attached 2)
  exact ⟨ipc3, by simp only [removeSegments, h1, h2, h3, Option.bind_some]⟩

theorem Affordable.calloc (h : Affordable H M) :
    sizeT (2#32 * M) * sizeofInt ≤ H.memory ∧ sizeT M * sizeofPthread ≤ H.memory ∧
      0 < semBytes M := by
  obtain ⟨hpos, hlt, hmem⟩ := h
  have h2 := two_mul_of_lt hpos hlt
  have hsem := sizeT_of_nonneg (x := 2#32 * M) (by omega)
  have hM := sizeT_of_nonneg (x := M) (by omega)
  refine ⟨by simp only [sizeofInt]; omega, by simp only [sizeofPthread]; omega, ?_⟩
  rw [semBytes, BitVec.toNat_mul, ← sizeT, BitVec.toNat_ofNat, sizeofSem]
  omega

theorem meets_of_good (hempty : srv.ipc.segments = []) (hg : Good H h) : Meets H srv h := by
  obtain ⟨⟨hlt, hsecret⟩, ⟨hsendN, hsendKeys⟩, M, hasked, hM⟩ := hg
  obtain ⟨hsem, hthreads, hbytes⟩ := hM.calloc
  have hstore := store_asked hasked srv.M
  obtain ⟨fuel, r, hr⟩ := create_returns H hempty hbytes (srv.pos + H.N)
  obtain ⟨ipc, hipc⟩ := removed_of_created H hempty hr h.attached
  have hs : session H fuel srv h = .returned M.toInt.toNat ⟨M, 0, ipc, r.third.pos⟩ := by
    simp [session, Host.calloc, sizeT_ofNat hlt, hsecret, hstore, hsem, hsendN, hr, hsendKeys,
      hthreads, hipc]
  exact ⟨fuel, _, _, hs, by simp [Handshake.workers, hasked], rfl, segments_of_removed hempty hs⟩

end Returns

theorem survives_iff (hempty : srv.ipc.segments = []) (hs : List Handshake) :
    Survives H srv hs ↔ ∀ h ∈ hs, Good H h := by
  induction hs generalizing srv with
  | nil => simp [Survives]
  | cons h hs ih =>
    rw [List.forall_mem_cons]
    constructor
    · rintro ⟨hmeets, hrest⟩
      refine ⟨good_of_meets hmeets, ?_⟩
      obtain ⟨fuel, created, srv', hret, -, -, hempty'⟩ := hmeets
      exact (ih hempty').mp (hrest fuel created srv' hret)
    · rintro ⟨hgood, hrest⟩
      refine ⟨meets_of_good hempty hgood, fun fuel created srv' hret => ?_⟩
      exact (ih (segments_of_removed hempty hret)).mpr hrest

theorem sampleFtok_toNat (a : ℕ) : (sampleFtok a).toNat = a % 256 * 0x1000000 + 0x081234 := by
  simp only [sampleFtok, BitVec.toNat_ofNat]
  omega

theorem sampleFtok_injective (a b : ℕ) (ha : a < 100) (hb : b < 100)
    (h : sampleFtok a = sampleFtok b) : a = b := by
  have hnat := congrArg BitVec.toNat h
  rw [sampleFtok_toNat, sampleFtok_toNat] at hnat
  omega

theorem sampleFtok_ne_zero (a : ℕ) (_ : a < 100) : sampleFtok a ≠ 0 := by
  intro h
  have hnat := congrArg BitVec.toNat h
  rw [sampleFtok_toNat] at hnat
  simp at hnat

theorem count_varies (pos a b : ℕ) : ∃ n, pos ≤ n ∧ id n % 100 ≠ a ∧ id n % 100 ≠ b := by
  by_cases h0 : pos % 100 ≠ a ∧ pos % 100 ≠ b
  · exact ⟨pos, Nat.le_refl _, h0⟩
  · by_cases h1 : (pos + 1) % 100 ≠ a ∧ (pos + 1) % 100 ≠ b
    · exact ⟨pos + 1, by omega, h1⟩
    · refine ⟨pos + 2, by omega, ?_⟩
      simp only [id]
      omega

def sampleHost : Host where
  N := 2
  memory := 1024
  ftok := sampleFtok
  rand := id
  N_pos := Nat.zero_lt_two
  N_lt := by decide
  memory_lt := by decide
  ftok_injective := sampleFtok_injective
  rand_varies := count_varies

def bootServer : Server := ⟨0, 0, ⟨[], [], 0, List.forall_mem_nil _⟩, 0⟩

def asks (b0 : BitVec 8) : Handshake :=
  ⟨.received [b0, 0, 0, 0] ⟨Nat.le_add_left 1 3, Nat.le_refl 4⟩, true, true, fun _ => false⟩

theorem asks_good {b0 : BitVec 8} (h : b0 ∈ [1, 2, 100]) : Good sampleHost (asks b0) := by
  have hafford : ∀ b ∈ ([1, 2, 100] : List (BitVec 8)), 0 < ((0 : BitVec 8) ++ (0 : BitVec 8) ++
      (0 : BitVec 8) ++ b).toInt ∧ ((0 : BitVec 8) ++ (0 : BitVec 8) ++ (0 : BitVec 8) ++ b).toInt <
      2 ^ 30 ∧ 8 * ((0 : BitVec 8) ++ (0 : BitVec 8) ++ (0 : BitVec 8) ++ b).toInt ≤ 1024 := by decide
  obtain ⟨hpos, hlt, hmem⟩ := hafford b0 h
  exact ⟨⟨by decide, by decide⟩, ⟨rfl, rfl⟩, _, rfl, hpos, hlt, hmem⟩

theorem three_clients : Survives sampleHost bootServer [asks 2, asks 100, asks 1] := by
  refine (survives_iff rfl _).mpr fun h hh => ?_
  simp only [List.mem_cons, List.not_mem_nil, or_false] at hh
  rcases hh with rfl | rfl | rfl <;> exact asks_good (by decide)

theorem no_workers_loops : ¬ Survives sampleHost bootServer [asks 0] := by
  rintro ⟨hmeets, -⟩
  obtain ⟨-, -, M, hasked, hM⟩ := good_of_meets hmeets
  cases hasked
  exact absurd hM.pos (by decide)

end Meets
end Guess
