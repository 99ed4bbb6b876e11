import Mathlib.Data.List.Nodup
import Mathlib.Tactic.Common

namespace Guess

section Draws
variable {stop bad : ℕ → Prop} {pos d : ℕ}

def NoneBefore (stop bad : ℕ → Prop) (pos : ℕ) : Prop :=
  ∀ n, pos ≤ n → (∀ m, pos ≤ m → m < n → ¬ stop m) → ¬ bad n

structure FirstAt (stop : ℕ → Prop) (pos d : ℕ) : Prop where
  le : pos ≤ d
  at_d : stop d
  before : ∀ m, pos ≤ m → m < d → ¬ stop m

theorem noneBefore_iff :
    NoneBefore stop bad pos ↔ ¬ bad pos ∧ (¬ stop pos → NoneBefore stop bad (pos + 1)) := by
  constructor
  · intro h
    refine ⟨h pos (Nat.le_refl _) fun m hm hlt => absurd hlt (Nat.not_lt_of_le hm),
      fun hstop n hn hbefore => h n (Nat.le_of_succ_le hn) fun m hm hlt => ?_⟩
    rcases Nat.eq_or_lt_of_le hm with rfl | hm
    · exact hstop
    · exact hbefore m hm hlt
  · rintro ⟨hbad, hrest⟩ n hn hbefore
    rcases Nat.eq_or_lt_of_le hn with rfl | hn
    · exact hbad
    · exact hrest (hbefore pos (Nat.le_refl _) hn) n hn fun m hm =>
        hbefore m (Nat.le_of_succ_le hm)

theorem firstAt_self (h : stop pos) : FirstAt stop pos d ↔ d = pos := by
  constructor
  · intro hd
    by_contra hne
    exact hd.before pos (Nat.le_refl _) (Nat.lt_of_le_of_ne hd.le (Ne.symm hne)) h
  · rintro rfl
    exact ⟨Nat.le_refl _, h, fun m hm hlt => absurd hlt (Nat.not_lt_of_le hm)⟩

theorem firstAt_later (h : ¬ stop pos) : FirstAt stop pos d ↔ FirstAt stop (pos + 1) d := by
  constructor
  · intro hd
    have hne : pos ≠ d := fun heq => h (heq ▸ hd.at_d)
    exact ⟨Nat.lt_of_le_of_ne hd.le hne, hd.at_d, fun m hm => hd.before m (Nat.le_of_succ_le hm)⟩
  · intro hd
    refine ⟨Nat.le_of_succ_le hd.le, hd.at_d, fun m hm hlt => ?_⟩
    rcases Nat.eq_or_lt_of_le hm with rfl | hm
    · exact h
    · exact hd.before m hm hlt

end Draws

section Shmget

abbrev Key := BitVec 32

structure ShmSegment where
  key : Key
  id : ℕ
  size : ℕ
deriving DecidableEq

structure Ipc where
  segments : List ShmSegment
  marked : List ℕ
  next : ℕ
  fresh : ∀ s ∈ segments, s.id < next

namespace Ipc
variable (ipc : Ipc)

def find (key : Key) : Option ShmSegment := ipc.segments.find? (·.key = key)

def Exists (id : ℕ) : Prop := ∃ s ∈ ipc.segments, s.id = id

theorem create_fresh (key : Key) (size : ℕ) :
    ∀ s ∈ ShmSegment.mk key ipc.next size :: ipc.segments, s.id < ipc.next + 1 := by
  intro s hs
  rcases List.mem_cons.mp hs with rfl | hs
  · exact Nat.lt_succ_self _
  · exact Nat.lt_succ_of_lt (ipc.fresh s hs)

def create (key : Key) (size : ℕ) : Ipc :=
  ⟨⟨key, ipc.next, size⟩ :: ipc.segments, ipc.marked, ipc.next + 1, ipc.create_fresh key size⟩

-- IPC_CREAT is always set; a segment of size 0 cannot be created
def shmget (key : Key) (size : ℕ) (excl : Bool) : Option (ℕ × Ipc) :=
  match ipc.find key with
  | some s => if excl then none else if size ≤ s.size then some (s.id, ipc) else none
  | none => if size = 0 then none else some (ipc.next, ipc.create key size)

variable {ipc} {ipc' : Ipc} {key k : Key} {size id : ℕ} {excl : Bool} {s : ShmSegment}

theorem find_create_self : (ipc.create key size).find key = some ⟨key, ipc.next, size⟩ := by
  simp [find, create]

theorem find_create_of_ne (h : k ≠ key) : (ipc.create key size).find k = ipc.find k := by
  simp [find, create, h.symm]

theorem lt_of_find (h : ipc.find key = some s) : s.id < ipc.next :=
  ipc.fresh s (List.mem_of_find?_eq_some h)

theorem exists_of_find (h : ipc.find key = some s) : ipc.Exists s.id :=
  ⟨s, List.mem_of_find?_eq_some h, rfl⟩

theorem lt_of_exists (h : ipc.Exists id) : id < ipc.next := by
  obtain ⟨s, hs, rfl⟩ := h
  exact ipc.fresh s hs

theorem exists_create : (ipc.create key size).Exists id ↔ id = ipc.next ∨ ipc.Exists id := by
  simp [Exists, create, eq_comm]

theorem shmget_free (hfree : ipc.find key = none) (hsize : 0 < size) :
    ipc.shmget key size excl = some (ipc.next, ipc.create key size) := by
  simp [shmget, hfree, Nat.ne_of_gt hsize]

theorem shmget_found (hs : ipc.find key = some s) (hle : size ≤ s.size) :
    ipc.shmget key size false = some (s.id, ipc) := by
  simp [shmget, hs, hle]

theorem shmget_small (hs : ipc.find key = some s) (hlt : s.size < size) :
    ipc.shmget key size excl = none := by
  simp [shmget, hs, Nat.not_le.mpr hlt]

theorem shmget_zero : ipc.shmget key 0 true = none := by
  cases hs : ipc.find key <;> simp [shmget, hs]

theorem shmget_cases (h : ipc.shmget key size excl = some (id, ipc')) :
    (∃ s, ipc.find key = some s ∧ excl = false ∧ id = s.id ∧ ipc' = ipc) ∨
      (ipc.find key = none ∧ id = ipc.next ∧ ipc' = ipc.create key size) := by
  cases hs : ipc.find key with
  | some s =>
    simp only [shmget, hs] at h
    split_ifs at h with hexcl
    cases h
    exact .inl ⟨s, rfl, by simpa using hexcl, rfl, rfl⟩
  | none =>
    simp only [shmget, hs] at h
    split_ifs at h
    cases h
    exact .inr ⟨rfl, rfl, rfl⟩

theorem shmget_next (h : ipc.shmget key size excl = some (id, ipc')) :
    ipc.next ≤ ipc'.next ∧ id < ipc'.next := by
  rcases shmget_cases h with ⟨s, hs, -, rfl, rfl⟩ | ⟨-, rfl, rfl⟩
  · exact ⟨Nat.le_refl _, lt_of_find hs⟩
  · exact ⟨Nat.le_succ _, Nat.lt_succ_self _⟩

theorem shmget_exists (h : ipc.shmget key size excl = some (id, ipc')) (x : ℕ) :
    ipc'.Exists x ↔ x = id ∨ ipc.Exists x := by
  rcases shmget_cases h with ⟨s, hs, -, rfl, rfl⟩ | ⟨-, rfl, rfl⟩
  · exact ⟨.inr, fun hx => hx.elim (fun heq => heq ▸ exists_of_find hs) (fun hx => hx)⟩
  · exact exists_create

theorem shmget_find (h : ipc.shmget key size excl = some (id, ipc')) {k : Key} (hk : k ≠ key) :
    ipc'.find k = ipc.find k := by
  rcases shmget_cases h with ⟨s, -, -, -, rfl⟩ | ⟨-, -, rfl⟩
  · rfl
  · exact find_create_of_ne hk

end Ipc

end Shmget

section Create
variable (ftok : ℕ → Key) (rand : ℕ → ℕ)

def drawKey (n : ℕ) : Key := ftok (rand n % 100)

structure Acquired where
  key : Key
  id : ℕ
  ipc : Ipc
  pos : ℕ

def acquire (size : ℕ) (excl : Bool) : ℕ → ℕ → Ipc → Option Acquired
  | 0, _, _ => none
  | fuel + 1, pos, ipc =>
    match ipc.shmget (drawKey ftok rand pos) size excl with
    | some (id, ipc) => some ⟨drawKey ftok rand pos, id, ipc, pos + 1⟩
    | none => acquire size excl fuel (pos + 1) ipc

def sizeofInt : ℕ := 4
def sizeofSem : ℕ := 32

def semBytes (M : BitVec 32) : ℕ := ((2#32 * M).signExtend 64 * BitVec.ofNat 64 sizeofSem).toNat

def createFirstSharedMemory (N fuel pos : ℕ) (ipc : Ipc) : Option Acquired :=
  acquire ftok rand N false fuel pos ipc

def createSecondSharedMemory (N fuel pos : ℕ) (ipc : Ipc) : Option Acquired :=
  acquire ftok rand (N * sizeofInt) false fuel pos ipc

def createThirdSharedMemory (M : BitVec 32) (fuel pos : ℕ) (ipc : Ipc) : Option Acquired :=
  acquire ftok rand (semBytes M) true fuel pos ipc

structure Segments where
  first : Acquired
  second : Acquired
  third : Acquired

def createSharedMemory (N : ℕ) (M : BitVec 32) (fuel pos : ℕ) (ipc : Ipc) : Option Segments :=
  (createFirstSharedMemory ftok rand N fuel pos ipc).bind fun a =>
  (createSecondSharedMemory ftok rand N fuel a.pos a.ipc).bind fun b =>
  (createThirdSharedMemory ftok rand M fuel b.pos b.ipc).map fun c => ⟨a, b, c⟩

end Create

section Isolation
variable {ftok : ℕ → Key} {rand : ℕ → ℕ} {N : ℕ} {M : BitVec 32} {fuel pos size : ℕ} {ipc : Ipc}
  {a b : Acquired} {r : Segments}

structure Isolated (ipc : Ipc) (r : Segments) : Prop where
  distinct : [r.first.id, r.second.id, r.third.id].Nodup
  new : ∀ id ∈ [r.first.id, r.second.id, r.third.id], ¬ ipc.Exists id

def FreeDraw (ftok : ℕ → Key) (rand : ℕ → ℕ) (ipc : Ipc) (n : ℕ) : Prop :=
  ipc.find (drawKey ftok rand n) = none

def LeftoverDraw (ftok : ℕ → Key) (rand : ℕ → ℕ) (ipc : Ipc) (size n : ℕ) : Prop :=
  ∃ s, ipc.find (drawKey ftok rand n) = some s ∧ size ≤ s.size

structure IsolatingDraws (ftok : ℕ → Key) (rand : ℕ → ℕ) (N : ℕ) (ipc : Ipc) (pos : ℕ) : Prop where
  first : NoneBefore (FreeDraw ftok rand ipc) (LeftoverDraw ftok rand ipc N) pos
  second : ∀ d, FirstAt (FreeDraw ftok rand ipc) pos d →
    NoneBefore (fun n => FreeDraw ftok rand ipc n ∧ drawKey ftok rand n ≠ drawKey ftok rand d)
      (LeftoverDraw ftok rand ipc (N * sizeofInt)) (d + 1)

theorem isolatingDraws_free (hfree : FreeDraw ftok rand ipc pos) :
    IsolatingDraws ftok rand N ipc pos ↔
      NoneBefore (fun n => FreeDraw ftok rand ipc n ∧ drawKey ftok rand n ≠ drawKey ftok rand pos)
        (LeftoverDraw ftok rand ipc (N * sizeofInt)) (pos + 1) := by
  constructor
  · exact fun h => h.second pos ((firstAt_self hfree).mpr rfl)
  · refine fun h => ⟨noneBefore_iff.mpr ⟨?_, fun hno => absurd hfree hno⟩, fun d hd => ?_⟩
    · rintro ⟨s, hs, -⟩
      rw [FreeDraw, hs] at hfree
      cases hfree
    · obtain rfl := (firstAt_self hfree).mp hd
      exact h

theorem isolatingDraws_taken (hfree : ¬ FreeDraw ftok rand ipc pos) :
    IsolatingDraws ftok rand N ipc pos ↔
      ¬ LeftoverDraw ftok rand ipc N pos ∧ IsolatingDraws ftok rand N ipc (pos + 1) := by
  constructor
  · intro h
    obtain ⟨hleft, hrest⟩ := noneBefore_iff.mp h.first
    exact ⟨hleft, hrest hfree, fun d hd => h.second d ((firstAt_later hfree).mpr hd)⟩
  · rintro ⟨hleft, h⟩
    exact ⟨noneBefore_iff.mpr ⟨hleft, fun _ => h.first⟩,
      fun d hd => h.second d ((firstAt_later hfree).mp hd)⟩

theorem acquire_some {excl : Bool} {id : ℕ} {ipc' : Ipc}
    (h : ipc.shmget (drawKey ftok rand pos) size excl = some (id, ipc')) :
    acquire ftok rand size excl (fuel + 1) pos ipc =
      some ⟨drawKey ftok rand pos, id, ipc', pos + 1⟩ := by
  simp [acquire, h]

theorem acquire_none {excl : Bool} (h : ipc.shmget (drawKey ftok rand pos) size excl = none) :
    acquire ftok rand size excl (fuel + 1) pos ipc =
      acquire ftok rand size excl fuel (pos + 1) ipc := by
  simp [acquire, h]

theorem acquire_shmget {excl : Bool} (h : acquire ftok rand size excl fuel pos ipc = some a) :
    (∃ n, a.key = drawKey ftok rand n) ∧ ipc.shmget a.key size excl = some (a.id, a.ipc) := by
  induction fuel generalizing pos with
  | zero => cases h
  | succ fuel ih =>
    cases hget : ipc.shmget (drawKey ftok rand pos) size excl with
    | none => exact ih ((acquire_none hget).symm.trans h)
    | some r =>
      rw [acquire_some hget] at h
      cases h
      exact ⟨⟨pos, rfl⟩, hget⟩

theorem acquire_le {excl : Bool} {fuel' : ℕ} (hle : fuel ≤ fuel')
    (h : acquire ftok rand size excl fuel pos ipc = some a) :
    acquire ftok rand size excl fuel' pos ipc = some a := by
  induction fuel generalizing pos fuel' with
  | zero => cases h
  | succ fuel ih =>
    obtain ⟨fuel', rfl⟩ : ∃ n, fuel' = n + 1 := ⟨fuel' - 1, by omega⟩
    cases hget : ipc.shmget (drawKey ftok rand pos) size excl with
    | none =>
      rw [acquire_none hget] at h ⊢
      exact ih (by omega) h
    | some r =>
      rw [acquire_some hget] at h ⊢
      exact h

theorem acquire_returns {excl : Bool} {n : ℕ} (hn : pos ≤ n)
    (hget : (ipc.shmget (drawKey ftok rand n) size excl).isSome = true) :
    ∃ fuel a, acquire ftok rand size excl fuel pos ipc = some a := by
  induction hd : n - pos generalizing pos with
  | zero =>
    obtain rfl : pos = n := by omega
    obtain ⟨r, hr⟩ := Option.isSome_iff_exists.mp hget
    exact ⟨1, _, acquire_some hr⟩
  | succ d ih =>
    cases hpos : ipc.shmget (drawKey ftok rand pos) size excl with
    | some r => exact ⟨1, _, acquire_some hpos⟩
    | none =>
      obtain ⟨fuel, a, ha⟩ := ih (show pos + 1 ≤ n by omega) (by omega)
      exact ⟨fuel + 1, a, (acquire_none hpos).trans ha⟩

theorem acquire_zero : acquire ftok rand 0 true fuel pos ipc = none := by
  induction fuel generalizing pos with
  | zero => rfl
  | succ fuel ih => exact (acquire_none Ipc.shmget_zero).trans ih

theorem first_cases (hN : 0 < N) (h : createFirstSharedMemory ftok rand N fuel pos ipc = some a) :
    (ipc.Exists a.id ∧ ¬ IsolatingDraws ftok rand N ipc pos) ∨
    (a.id = ipc.next ∧ ipc.find a.key = none ∧ a.ipc = ipc.create a.key N ∧
      (IsolatingDraws ftok rand N ipc pos ↔
        NoneBefore (fun n => FreeDraw ftok rand ipc n ∧ drawKey ftok rand n ≠ a.key)
          (LeftoverDraw ftok rand ipc (N * sizeofInt)) a.pos)) := by
  rw [createFirstSharedMemory] at h
  induction fuel generalizing pos with
  | zero => cases h
  | succ fuel ih =>
    cases hfind : ipc.find (drawKey ftok rand pos) with
    | none =>
      rw [acquire_some (Ipc.shmget_free hfind hN)] at h
      cases h
      exact .inr ⟨rfl, hfind, rfl, isolatingDraws_free hfind⟩
    | some s =>
      have htaken : ¬ FreeDraw ftok rand ipc pos := by simp [FreeDraw, hfind]
      rw [isolatingDraws_taken htaken]
      by_cases hle : N ≤ s.size
      · rw [acquire_some (Ipc.shmget_found hfind hle)] at h
        cases h
        exact .inl ⟨Ipc.exists_of_find hfind, fun hno => hno.1 ⟨s, hfind, hle⟩⟩
      · have hleft : ¬ LeftoverDraw ftok rand ipc N pos := by
          rintro ⟨t, ht, htle⟩
          obtain rfl := Option.some.inj (hfind.symm.trans ht)
          exact hle htle
        have hnext := ih
          ((acquire_none (Ipc.shmget_small hfind (Nat.lt_of_not_le hle))).symm.trans h)
        simpa only [hleft, not_false_eq_true, true_and] using hnext

theorem second_iff {key : Key} (hN : 0 < N) (hkey : ipc.find key = none)
    (h : createSecondSharedMemory ftok rand N fuel pos (ipc.create key N) = some b) :
    b.id ≠ ipc.next ∧ ¬ ipc.Exists b.id ↔
      NoneBefore (fun n => FreeDraw ftok rand ipc n ∧ drawKey ftok rand n ≠ key)
        (LeftoverDraw ftok rand ipc (N * sizeofInt)) pos := by
  have hlt : N < N * sizeofInt := by
    simp only [sizeofInt]
    omega
  rw [createSecondSharedMemory] at h
  induction fuel generalizing pos with
  | zero => cases h
  | succ fuel ih =>
    rw [noneBefore_iff]
    by_cases hsame : drawKey ftok rand pos = key
    · have hsmall : (ipc.create key N).shmget (drawKey ftok rand pos) (N * sizeofInt) false = none := by
        rw [hsame]
        exact Ipc.shmget_small Ipc.find_create_self hlt
      have hleft : ¬ LeftoverDraw ftok rand ipc (N * sizeofInt) pos := by
        rintro ⟨s, hs, -⟩
        rw [hsame, hkey] at hs
        cases hs
      simpa [hsame, hleft] using ih ((acquire_none hsmall).symm.trans h)
    · have hfind' : (ipc.create key N).find (drawKey ftok rand pos) =
          ipc.find (drawKey ftok rand pos) := Ipc.find_create_of_ne hsame
      cases hfind : ipc.find (drawKey ftok rand pos) with
      | none =>
        rw [acquire_some (Ipc.shmget_free (hfind'.trans hfind) (Nat.zero_lt_of_lt hlt))] at h
        cases h
        refine iff_of_true ⟨Nat.ne_of_gt (Nat.lt_succ_self _), fun hex => ?_⟩
          ⟨?_, fun hno => absurd ⟨hfind, hsame⟩ hno⟩
        · exact absurd (Ipc.lt_of_exists hex) (Nat.not_lt_of_le (Nat.le_succ _))
        · rintro ⟨s, hs, -⟩
          rw [hfind] at hs
          cases hs
      | some s =>
        have htaken : ¬ FreeDraw ftok rand ipc pos := by simp [FreeDraw, hfind]
        by_cases hle : N * sizeofInt ≤ s.size
        · rw [acquire_some (Ipc.shmget_found (hfind'.trans hfind) hle)] at h
          cases h
          exact iff_of_false (fun hno => hno.2 (Ipc.exists_of_find hfind))
            fun hno => hno.1 ⟨s, hfind, hle⟩
        · have hleft : ¬ LeftoverDraw ftok rand ipc (N * sizeofInt) pos := by
            rintro ⟨t, ht, htle⟩
            obtain rfl := Option.some.inj (hfind.symm.trans ht)
            exact hle htle
          have hnext := ih ((acquire_none
            (Ipc.shmget_small (hfind'.trans hfind) (Nat.lt_of_not_le hle))).symm.trans h)
          simpa [hleft, htaken] using hnext

theorem isolated_iff_two (h : createSharedMemory ftok rand N M fuel pos ipc = some r) :
    Isolated ipc r ↔ r.second.id ≠ r.first.id ∧ ¬ ipc.Exists r.first.id ∧ ¬ ipc.Exists r.second.id := by
  simp only [createSharedMemory, Option.bind_eq_some_iff, Option.map_eq_some_iff] at h
  obtain ⟨a, ha, b, hb, c, hc, rfl⟩ := h
  obtain ⟨hanext, haid⟩ := Ipc.shmget_next (acquire_shmget ha).2
  obtain ⟨hbnext, hbid⟩ := Ipc.shmget_next (acquire_shmget hb).2
  have hcid : c.id = b.ipc.next := by
    rcases Ipc.shmget_cases (acquire_shmget hc).2 with ⟨s, -, hexcl, -⟩ | ⟨-, hid, -⟩
    · cases hexcl
    · exact hid
  have hcnew : ¬ ipc.Exists c.id := fun hex => by
    have := Ipc.lt_of_exists hex
    omega
  constructor
  · rintro ⟨hdistinct, hnew⟩
    simp only [List.nodup_cons, List.mem_cons, not_or] at hdistinct
    exact ⟨Ne.symm hdistinct.1.1, hnew a.id (by simp), hnew b.id (by simp)⟩
  · rintro ⟨hne, hanew, hbnew⟩
    refine ⟨?_, ?_⟩
    · have hac : a.id ≠ c.id := by omega
      have hbc : b.id ≠ c.id := by omega
      simp [hne.symm, hac, hbc]
    · simp [hanew, hbnew, hcnew]

theorem draws_of_isolated (hN : 0 < N)
    (h : createSharedMemory ftok rand N M fuel pos ipc = some r) :
    r.second.id ≠ r.first.id ∧ ¬ ipc.Exists r.first.id ∧ ¬ ipc.Exists r.second.id ↔
      IsolatingDraws ftok rand N ipc pos := by
  simp only [createSharedMemory, Option.bind_eq_some_iff, Option.map_eq_some_iff] at h
  obtain ⟨a, ha, b, hb, c, hc, rfl⟩ := h
  rcases first_cases hN ha with ⟨hex, hno⟩ | ⟨hid, hfree, hipc, hiff⟩
  · exact iff_of_false (fun hnew => hnew.2.1 hex) hno
  · have hnew : ¬ ipc.Exists a.id := fun hex => by
      have := Ipc.lt_of_exists hex
      omega
    rw [hipc] at hb
    rw [hiff, ← second_iff hN hfree hb, hid]
    simp only [← hid, hnew, not_false_eq_true, true_and]

theorem isolated_iff (hN : 0 < N) (h : createSharedMemory ftok rand N M fuel pos ipc = some r) :
    Isolated ipc r ↔ IsolatingDraws ftok rand N ipc pos :=
  (isolated_iff_two h).trans (draws_of_isolated hN h)

theorem isolating_of_small (hsmall : ∀ s ∈ ipc.segments, s.size < N) :
    IsolatingDraws ftok rand N ipc pos := by
  have hno {size n : ℕ} (hle : N ≤ size) : ¬ LeftoverDraw ftok rand ipc size n := by
    rintro ⟨s, hs, hsize⟩
    have := hsmall s (List.mem_of_find?_eq_some hs)
    omega
  exact ⟨fun n _ _ => hno (Nat.le_refl N),
    fun d _ n _ _ => hno (Nat.le_mul_of_pos_right N (by decide))⟩

def sampleFtok (proj_id : ℕ) : Key := BitVec.ofNat 32 (proj_id % 256 * 0x1000000 + 0x081234)

theorem one_fresh (key : Key) (size : ℕ) : ∀ s ∈ [ShmSegment.mk key 0 size], s.id < 1 := by
  intro s hs
  rw [List.mem_singleton.mp hs]
  exact Nat.zero_lt_one

def oneByteLeft : Ipc := ⟨[⟨sampleFtok 0, 0, 1⟩], [], 1, one_fresh _ _⟩

theorem two_bytes_isolated : ∃ r, createSharedMemory sampleFtok id 2 1 2 0 oneByteLeft = some r ∧
    Isolated oneByteLeft r := by
  obtain ⟨r, hr⟩ : ∃ r, createSharedMemory sampleFtok id 2 1 2 0 oneByteLeft = some r := ⟨_, rfl⟩
  refine ⟨r, hr, (isolated_iff Nat.zero_lt_two hr).mpr (isolating_of_small fun s hs => ?_)⟩
  rw [List.mem_singleton.mp hs]
  exact Nat.one_lt_two

theorem leftover_taken : ∃ r, createSharedMemory sampleFtok id 1 1 2 0 oneByteLeft = some r ∧
    ¬ Isolated oneByteLeft r :=
  ⟨_, rfl, fun h => h.new 0 (by decide) ⟨_, List.mem_singleton_self _, rfl⟩⟩

end Isolation
end Guess
