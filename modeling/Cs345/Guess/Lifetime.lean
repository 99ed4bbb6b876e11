import Cs345.Machine
import Cs345.Guess.Connect

namespace Guess
variable {ipc ipc' : Ipc} {key : Key} {size id : ℕ} {creat excl : Bool} {s : ShmSegment}

section Events

inductive Event where
  | call (key : Key) (size : ℕ) (creat excl : Bool)
  | remove (id : ℕ) (attached : Bool)
  | connect (fuel : ℕ) (h : Handshake)

variable (H : Host)

def Host.next (srv : Server) : Event → Option Server
  | .call key size creat excl =>
    some { srv with ipc := ((srv.ipc.call key size creat excl).map Prod.snd).getD srv.ipc }
  | .remove id attached => some { srv with ipc := (srv.ipc.remove id attached).getD srv.ipc }
  | .connect fuel h =>
    match session H fuel srv h with
    | .returned _ srv => some srv
    | _ => none

def life : Machine Server Event :=
  .ofFn (fun srv => srv.threadNo = 0 ∧ srv.pos = 0 ∧ (srv.ipc.segments.map (·.id)).Nodup) H.next

def Host.segments (srv : Server) (fuel : ℕ) (h : Handshake) : Option Segments :=
  createSharedMemory H.ftok H.rand H.N (h.recv.store srv.M) fuel (srv.pos + H.N) srv.ipc

def Segments.ids (r : Segments) : List ℕ := [r.first.id, r.second.id, r.third.id]

def made : Server × Event × Server → List ShmSegment
  | (srv, .call _ _ _ _, srv') => srv'.ipc.segments.filter fun s => srv.ipc.next ≤ s.id
  | _ => []

def removed : Server × Event × Server → List ShmSegment
  | (srv, .remove id _, _) => srv.ipc.segments.filter (·.id = id)
  | _ => []

def taken : Server × Event × Server → List ShmSegment
  | (srv, .connect fuel h, _) => srv.ipc.segments.filter fun s =>
    (H.segments srv fuel h).any fun r => r.ids.contains s.id
  | _ => []

instance (ipc : Ipc) (id : ℕ) : Decidable (ipc.Exists id) :=
  inferInstanceAs (Decidable (∃ s ∈ ipc.segments, s.id = id))

instance (ipc : Ipc) (r : Segments) : Decidable (Isolated ipc r) :=
  decidable_of_iff (r.ids.Nodup ∧ ∀ id ∈ r.ids, ¬ ipc.Exists id)
    ⟨fun h => ⟨h.1, h.2⟩, fun h => ⟨h.distinct, h.new⟩⟩

def clashes : Server × Event × Server → Bool
  | (srv, .connect fuel h, _) => (H.segments srv fuel h).any fun r => ¬ Isolated srv.ipc r
  | _ => false

def Host.drawable (s : ShmSegment) : Bool :=
  (List.range 100).any (fun p => H.ftok p = s.key) && H.N ≤ s.size

end Events

section Tables

theorem shmget_filter {p : ShmSegment → Bool} (h : ipc.shmget key size excl = some (id, ipc'))
    (hp : ∀ s, s.id = id → p s = false) : ipc'.segments.filter p = ipc.segments.filter p := by
  rcases Ipc.shmget_cases h with ⟨s, -, -, -, rfl⟩ | ⟨-, rfl, rfl⟩
  · rfl
  · rw [Ipc.create, List.filter_cons_of_neg (by simp [hp])]

theorem call_cases (h : ipc.call key size creat excl = some (id, ipc')) :
    ipc' = ipc ∨ ∃ k, ipc' = ipc.create k size := by
  simp only [Ipc.call] at h
  split_ifs at h
  · cases h
    exact .inr ⟨0, rfl⟩
  · rcases Ipc.shmget_cases h with ⟨s, -, -, -, rfl⟩ | ⟨-, -, rfl⟩
    · exact .inl rfl
    · exact .inr ⟨key, rfl⟩
  · split at h
    · split_ifs at h
      cases h
      exact .inl rfl
    · cases h

theorem removeSegments_eq {attached : Fin 3 → Bool} {r : Segments}
    (h : removeSegments attached r = some ipc') : ipc'.next = r.third.ipc.next ∧
      ipc'.segments = r.third.ipc.segments.filter fun s => ! r.ids.contains s.id := by
  simp only [removeSegments, Option.bind_eq_some_iff] at h
  obtain ⟨ipc1, h1, ipc2, h2, h3⟩ := h
  refine ⟨(remove_cases h3).1.trans ((remove_cases h2).1.trans (remove_cases h1).1), ?_⟩
  rw [remove_segments h3, remove_segments h2, remove_segments h1, List.filter_filter,
    List.filter_filter]
  refine List.filter_congr fun s _ => ?_
  simp only [Segments.ids]
  grind

theorem returned_segments {H : Host} {srv srv' : Server} {fuel created : ℕ} {h : Handshake}
    (hs : session H fuel srv h = .returned created srv') :
    ∃ r, H.segments srv fuel h = some r ∧ srv.ipc.next ≤ srv'.ipc.next ∧
      srv'.ipc.segments = srv.ipc.segments.filter fun s => ! r.ids.contains s.id := by
  obtain ⟨-, -, -, -, -, r, ipc, hr, hipc, rfl⟩ := session_returned hs
  obtain ⟨hnext, hseg⟩ := removeSegments_eq hipc
  refine ⟨r, hr, ?_⟩
  simp only [createSharedMemory, Option.bind_eq_some_iff, Option.map_eq_some_iff] at hr
  obtain ⟨a, ha, b, hb, c, hc, rfl⟩ := hr
  have hget1 := (acquire_shmget ha).2
  have hget2 := (acquire_shmget hb).2
  have hget3 := (acquire_shmget hc).2
  refine ⟨?_, ?_⟩
  · rw [hnext]
    exact (Ipc.shmget_next hget1).1.trans ((Ipc.shmget_next hget2).1.trans (Ipc.shmget_next hget3).1)
  · rw [hseg, shmget_filter hget3, shmget_filter hget2, shmget_filter hget1]
    all_goals
      intro s hid
      simp [Segments.ids, hid]

theorem shmget_old (h : ipc.shmget key size excl = some (id, ipc')) (hid : id < ipc.next) :
    ∃ s ∈ ipc.segments, s.id = id ∧ s.key = key ∧ size ≤ s.size ∧ excl = false := by
  cases hs : ipc.find key with
  | some s =>
    simp only [Ipc.shmget, hs] at h
    split_ifs at h with hexcl hle
    cases h
    have hkey : s.key = key := by simpa using List.find?_some hs
    exact ⟨s, List.mem_of_find?_eq_some hs, rfl, hkey, hle, by simpa using hexcl⟩
  | none =>
    rcases Ipc.shmget_cases h with ⟨s, hfind, -⟩ | ⟨-, rfl, -⟩
    · rw [hs] at hfind
      cases hfind
    · exact absurd hid (Nat.lt_irrefl _)

theorem mem_of_shmget (h : ipc.shmget key size excl = some (id, ipc')) (hs : s ∈ ipc'.segments)
    (hid : s.id < ipc.next) : s ∈ ipc.segments := by
  rcases Ipc.shmget_cases h with ⟨t, -, -, -, rfl⟩ | ⟨-, -, rfl⟩
  · exact hs
  · rcases List.mem_cons.mp hs with rfl | hs
    · exact absurd hid (Nat.lt_irrefl _)
    · exact hs

theorem drawable_of_draw {H : Host} {n : ℕ} (hkey : s.key = drawKey H.ftok H.rand n)
    (hsize : H.N ≤ s.size) : H.drawable s = true := by
  simp only [Host.drawable, Bool.and_eq_true, List.any_eq_true, decide_eq_true_eq]
  exact ⟨⟨H.rand n % 100, List.mem_range.mpr (Nat.mod_lt _ (by decide)), hkey.symm⟩, hsize⟩

variable {H : Host} {srv : Server} {fuel : ℕ} {h : Handshake} {r : Segments}

theorem drawable_of_old (hr : H.segments srv fuel h = some r) (hid : id ∈ r.ids)
    (hold : id < srv.ipc.next) : ∃ s ∈ srv.ipc.segments, s.id = id ∧ H.drawable s = true := by
  simp only [Host.segments, createSharedMemory, Option.bind_eq_some_iff,
    Option.map_eq_some_iff] at hr
  obtain ⟨a, ha, b, hb, c, hc, rfl⟩ := hr
  obtain ⟨⟨n, hn⟩, hget1⟩ := acquire_shmget ha
  obtain ⟨⟨m, hm⟩, hget2⟩ := acquire_shmget hb
  have hget3 := (acquire_shmget hc).2
  have hnext1 := (Ipc.shmget_next hget1).1
  have hnext2 := (Ipc.shmget_next hget2).1
  simp only [Segments.ids, List.mem_cons, List.not_mem_nil, or_false] at hid
  rcases hid with rfl | rfl | rfl
  · obtain ⟨s, hs, hsid, hkey, hsize, -⟩ := shmget_old hget1 hold
    exact ⟨s, hs, hsid, drawable_of_draw (hkey.trans hn) hsize⟩
  · obtain ⟨s, hs, hsid, hkey, hsize, -⟩ := shmget_old hget2 (hold.trans_le hnext1)
    exact ⟨s, mem_of_shmget hget1 hs (hsid ▸ hold), hsid, drawable_of_draw (hkey.trans hm)
      ((Nat.le_mul_of_pos_right H.N (by decide)).trans hsize)⟩
  · obtain ⟨s, -, -, -, -, hexcl⟩ := shmget_old hget3 (hold.trans_le (hnext1.trans hnext2))
    cases hexcl

theorem second_ne_first (hr : H.segments srv fuel h = some r) (hnew : ¬ srv.ipc.Exists r.first.id) :
    r.second.id ≠ r.first.id := by
  simp only [Host.segments, createSharedMemory, Option.bind_eq_some_iff,
    Option.map_eq_some_iff] at hr
  obtain ⟨a, ha, b, hb, c, hc, rfl⟩ := hr
  rcases Ipc.shmget_cases (acquire_shmget ha).2 with ⟨s, hs, -, hid, -⟩ | ⟨-, hid, hipc⟩
  · exact absurd (hid ▸ Ipc.exists_of_find hs) hnew
  · intro heq
    have hlt : b.id < a.ipc.next := by
      rw [heq, hid, hipc]
      exact Nat.lt_succ_self _
    obtain ⟨s, hs, hsid, -, hsize, -⟩ := shmget_old (acquire_shmget hb).2 hlt
    rw [hipc, Ipc.create, List.mem_cons] at hs
    have hN := H.N_pos
    rcases hs with rfl | hs
    · simp only [sizeofInt] at hsize
      omega
    · have hold := srv.ipc.fresh s hs
      have : s.id = srv.ipc.next := hsid.trans (heq.trans hid)
      omega

theorem old_of_clash (hr : H.segments srv fuel h = some r) (hclash : ¬ Isolated srv.ipc r) :
    ∃ id ∈ r.ids, srv.ipc.Exists id := by
  by_contra hnew
  push Not at hnew
  have hfirst := hnew r.first.id List.mem_cons_self
  have hsecond := hnew r.second.id (List.mem_cons_of_mem _ List.mem_cons_self)
  exact hclash ((isolated_iff_two hr).mpr ⟨second_ne_first hr hfirst, hfirst, hsecond⟩)

theorem drawable_of_clash (hr : H.segments srv fuel h = some r) (hclash : ¬ Isolated srv.ipc r) :
    ∃ s ∈ srv.ipc.segments, s.id ∈ r.ids ∧ H.drawable s = true := by
  obtain ⟨id, hid, hex⟩ := old_of_clash hr hclash
  obtain ⟨s, hs, rfl, hdraw⟩ := drawable_of_old hr hid (Ipc.lt_of_exists hex)
  exact ⟨s, hs, hid, hdraw⟩

end Tables

section Life
variable {H : Host} {srv srv' : Server} {e : Event} {tr : List (Event × Server)}
  {s : ShmSegment}

theorem connect_step {fuel : ℕ} {h : Handshake} (hstep : (life H).step srv (.connect fuel h) srv') :
    ∃ created, session H fuel srv h = .returned created srv' := by
  cases hs : session H fuel srv h with
  | returned created srv1 =>
    have heq : some srv1 = some srv' := by simpa only [life, Machine.ofFn, Host.next, hs] using hstep
    exact ⟨created, by rw [Option.some.inj heq]⟩
  | exited => simp [life, Machine.ofFn, Host.next, hs] at hstep
  | crashed => simp [life, Machine.ofFn, Host.next, hs] at hstep
  | looping => simp [life, Machine.ofFn, Host.next, hs] at hstep

theorem call_step {key : Key} {size : ℕ} {creat excl : Bool}
    (hstep : (life H).step srv (.call key size creat excl) srv') :
    srv'.ipc = srv.ipc ∨ ∃ k, srv'.ipc = srv.ipc.create k size := by
  have hipc : ((srv.ipc.call key size creat excl).map Prod.snd).getD srv.ipc = srv'.ipc :=
    congrArg Server.ipc (Option.some.inj hstep)
  rw [← hipc]
  cases hcall : srv.ipc.call key size creat excl with
  | none => exact .inl rfl
  | some r => exact call_cases hcall

theorem remove_step {id : ℕ} {attached : Bool}
    (hstep : (life H).step srv (.remove id attached) srv') :
    srv'.ipc.next = srv.ipc.next ∧ srv'.ipc.segments = srv.ipc.segments.filter (·.id ≠ id) := by
  have hipc : (srv.ipc.remove id attached).getD srv.ipc = srv'.ipc :=
    congrArg Server.ipc (Option.some.inj hstep)
  rw [← hipc]
  cases hrm : srv.ipc.remove id attached with
  | none =>
    refine ⟨rfl, (List.filter_eq_self.mpr fun s hs => ?_).symm⟩
    by_contra hid
    obtain ⟨ipc', hsome⟩ := exists_remove (show srv.ipc.Exists id from
      ⟨s, hs, by simpa using hid⟩) attached
    rw [hrm] at hsome
    cases hsome
  | some ipc => exact remove_cases hrm

theorem call_mem {key : Key} {size : ℕ} {creat excl : Bool}
    (hstep : (life H).step srv (.call key size creat excl) srv') :
    s ∈ srv'.ipc.segments ↔
      s ∈ srv.ipc.segments ∨ s ∈ srv'.ipc.segments ∧ srv.ipc.next ≤ s.id := by
  rcases call_step hstep with hsame | ⟨k, hnew⟩
  · rw [hsame]
    exact ⟨.inl, fun h => h.elim (fun hs => hs) And.left⟩
  · rw [hnew, Ipc.create, List.mem_cons]
    constructor
    · rintro (rfl | hs)
      · exact .inr ⟨.inl rfl, Nat.le_refl _⟩
      · exact .inl hs
    · rintro (hs | ⟨hs, -⟩)
      · exact .inr hs
      · exact hs

theorem life_next (hstep : (life H).step srv e srv') : srv.ipc.next ≤ srv'.ipc.next := by
  cases e with
  | call key size creat excl =>
    rcases call_step hstep with hsame | ⟨k, hnew⟩
    · rw [hsame]
    · rw [hnew]
      exact Nat.le_succ _
  | remove id attached => rw [(remove_step hstep).1]
  | connect fuel h =>
    obtain ⟨created, hs⟩ := connect_step hstep
    obtain ⟨r, -, hnext, -⟩ := returned_segments hs
    exact hnext

theorem life_ledger : Machine.Ledger (life H) (·.ipc.segments) made
    (fun m => removed m ++ taken H m) (fun srv s => s.id < srv.ipc.next) where
  mem_iff {srv e srv'} hstep s := by
    cases e with
    | call key size creat excl =>
      rw [call_mem hstep]
      simp [made, removed, taken]
    | remove id attached =>
      rw [(remove_step hstep).2]
      simp [made, removed, taken]
      tauto
    | connect fuel h =>
      obtain ⟨created, hs⟩ := connect_step hstep
      obtain ⟨r, hr, -, hseg⟩ := returned_segments hs
      rw [hseg]
      simp [made, removed, taken, hr]
      tauto
  keeps hstep _ hold := Nat.lt_of_lt_of_le hold (life_next hstep)
  gained {srv e srv'} hstep s hs := by
    cases e with
    | call key size creat excl => simpa [made] using (List.mem_filter.mp hs).2
    | remove id attached => cases hs
    | connect fuel h => cases hs
  lost {srv e srv'} hstep s hs := by
    refine Nat.lt_of_lt_of_le (srv.ipc.fresh s ?_) (life_next hstep)
    cases e with
    | call key size creat excl => cases hs
    | remove id attached => exact List.mem_of_mem_filter (List.append_nil _ ▸ hs)
    | connect fuel h => exact List.mem_of_mem_filter hs

theorem distinct_step (hids : (srv.ipc.segments.map (·.id)).Nodup)
    (hstep : (life H).step srv e srv') : (srv'.ipc.segments.map (·.id)).Nodup := by
  cases e with
  | call key size creat excl =>
    rcases call_step hstep with hsame | ⟨k, hnew⟩
    · rwa [hsame]
    · rw [hnew, Ipc.create, List.map_cons, List.nodup_cons]
      refine ⟨fun hmem => ?_, hids⟩
      obtain ⟨s, hs, hid⟩ := List.mem_map.mp hmem
      exact Nat.lt_irrefl _ (hid ▸ srv.ipc.fresh s hs)
  | remove id attached =>
    rw [(remove_step hstep).2]
    exact hids.sublist (List.filter_sublist.map _)
  | connect fuel h =>
    obtain ⟨created, hs⟩ := connect_step hstep
    obtain ⟨r, -, -, hseg⟩ := returned_segments hs
    rw [hseg]
    exact hids.sublist (List.filter_sublist.map _)

theorem taken_drawable (hids : (srv.ipc.segments.map (·.id)).Nodup) (srv' : Server) :
    ∀ s ∈ taken H (srv, e, srv'), H.drawable s = true := by
  intro s hs
  cases e with
  | call key size creat excl => cases hs
  | remove id attached => cases hs
  | connect fuel h =>
    obtain ⟨hs, hany⟩ := List.mem_filter.mp hs
    obtain ⟨r, hr, hid⟩ := (Option.any_eq_true _ _).mp hany
    obtain ⟨t, ht, heq, hdraw⟩ := drawable_of_old hr (List.contains_iff_mem.mp hid)
      (srv.ipc.fresh s hs)
    rwa [List.inj_on_of_nodup_map hids hs ht heq.symm]

theorem taken_run (hrun : (life H).Run srv tr) (hids : (srv.ipc.segments.map (·.id)).Nodup) :
    ∀ s ∈ (Machine.moves srv tr).flatMap (taken H), H.drawable s = true := by
  induction hrun with
  | nil => simp [Machine.moves]
  | cons hst _ ih =>
    intro s hs
    rcases List.mem_append.mp hs with hs | hs
    · exact taken_drawable hids _ s hs
    · exact ih (distinct_step hids hst) s hs

theorem filter_drop {p q : ShmSegment → Bool} {l : List ShmSegment} (hs : s ∈ l) (hp : p s = true)
    (hq : q s = false) : ((l.filter q).filter p).length < (l.filter p).length := by
  rw [List.filter_filter, List.filter_congr (fun x _ => Bool.and_comm (p x) (q x)),
    ← List.filter_filter, List.length_filter_lt_length_iff_exists]
  exact ⟨s, List.mem_filter.mpr ⟨hs, hp⟩, by simp [hq]⟩

theorem clash_pays (hstep : (life H).step srv e srv') :
    (srv'.ipc.segments.filter H.drawable).length +
        (if clashes H (srv, e, srv') then 1 else 0) ≤
      (srv.ipc.segments.filter H.drawable).length +
        ((made (srv, e, srv')).filter H.drawable).length := by
  cases e with
  | call key size creat excl =>
    have hno : clashes H (srv, .call key size creat excl, srv') = false := rfl
    rw [hno, if_neg Bool.false_ne_true]
    rcases call_step hstep with hsame | ⟨k, hnew⟩
    · rw [hsame]
      omega
    · have hmade : ⟨k, srv.ipc.next, size⟩ ∈ made (srv, .call key size creat excl, srv') := by
        rw [made, hnew]
        exact List.mem_filter.mpr ⟨List.mem_cons_self, by simp⟩
      rw [hnew, Ipc.create, List.filter_cons]
      split_ifs with hdraw
      · have hpos := List.length_pos_of_mem (List.mem_filter.mpr ⟨hmade, hdraw⟩)
        rw [List.length_cons]
        omega
      · omega
  | remove id attached =>
    have hno : clashes H (srv, .remove id attached, srv') = false := rfl
    rw [hno, if_neg Bool.false_ne_true, (remove_step hstep).2]
    exact Nat.add_le_add (List.filter_sublist.filter H.drawable).length_le (Nat.zero_le _)
  | connect fuel h =>
    obtain ⟨created, hs⟩ := connect_step hstep
    obtain ⟨r, hr, -, hseg⟩ := returned_segments hs
    rw [hseg]
    by_cases hclash : Isolated srv.ipc r
    · have hno : clashes H (srv, .connect fuel h, srv') = false := by simp [clashes, hr, hclash]
      rw [hno, if_neg Bool.false_ne_true]
      exact Nat.add_le_add (List.filter_sublist.filter H.drawable).length_le (Nat.zero_le _)
    · obtain ⟨s, hmem, hid, hdraw⟩ := drawable_of_clash hr hclash
      have hlt := filter_drop (q := fun s => ! r.ids.contains s.id) hmem hdraw (by simpa using hid)
      split_ifs <;> omega

theorem table_balances (hrun : (life H).Run srv tr)
    (hids : (srv.ipc.segments.map (·.id)).Nodup) :
    (∀ s, s ∈ (Machine.last srv tr).ipc.segments ↔
      (s ∈ srv.ipc.segments ∨ s ∈ (Machine.moves srv tr).flatMap made) ∧
        s ∉ (Machine.moves srv tr).flatMap removed ∧
        s ∉ (Machine.moves srv tr).flatMap (taken H)) ∧
    ∀ s ∈ (Machine.moves srv tr).flatMap (taken H), H.drawable s = true := by
  refine ⟨fun s => ?_, taken_run hrun hids⟩
  rw [life_ledger.run_iff hrun s]
  simp only [List.mem_flatMap, List.mem_append]
  grind

theorem clashes_bounded (hrun : (life H).Run srv tr) :
    (Machine.moves srv tr).countP (clashes H) ≤
      (srv.ipc.segments.filter H.drawable).length +
        (((Machine.moves srv tr).flatMap made).filter H.drawable).length := by
  have hle := hrun.countP_add_le (b := clashes H)
    (μ := fun srv => (srv.ipc.segments.filter H.drawable).length)
    (g := fun m => (made m).filter H.drawable) fun _ _ _ hstep => clash_pays hstep
  rw [List.filter_flatMap]
  omega

theorem half_varies (pos a b : ℕ) : ∃ n, pos ≤ n ∧ n / 2 % 100 ≠ a ∧ n / 2 % 100 ≠ b := by
  obtain ⟨m, hm, hne⟩ := count_varies pos a b
  refine ⟨2 * m, by omega, ?_⟩
  rwa [Nat.mul_div_cancel_left m Nat.zero_lt_two]

def twiceHost : Host := { sampleHost with rand := (· / 2), rand_varies := half_varies }

def borrowedServer : Server := { bootServer with ipc := bootServer.ipc.create (sampleFtok 1) 8 }

def lingering : Handshake := { asks 2 with attached := fun _ => true }

theorem borrowed_run : ∃ srv, (life twiceHost).Run bootServer
    [(.call (sampleFtok 1) 8 true false, borrowedServer), (.connect 1 lingering, srv)] ∧
    srv.ipc.segments = [] ∧
    ∃ r, twiceHost.segments borrowedServer 1 lingering = some r ∧ r.first.id = r.second.id :=
  ⟨_, .cons rfl (.cons rfl (.nil _)), rfl, _, rfl, rfl⟩

theorem borrowed_taken : ∃ tr, (life twiceHost).Run bootServer tr ∧ tr.length = 2 ∧
    (Machine.last bootServer tr).ipc.segments = [] ∧
    ∀ s ∈ (Machine.moves bootServer tr).flatMap (taken twiceHost),
      twiceHost.drawable s = true := by
  obtain ⟨srv, hrun, hempty, -⟩ := borrowed_run
  exact ⟨_, hrun, rfl, hempty, (table_balances hrun List.nodup_nil).2⟩

theorem one_clash : ∃ tr, (life twiceHost).Run bootServer tr ∧
    (Machine.moves bootServer tr).countP (clashes twiceHost) = 1 ∧
    1 ≤ (((Machine.moves bootServer tr).flatMap made).filter twiceHost.drawable).length := by
  obtain ⟨srv, hrun, -⟩ := borrowed_run
  exact ⟨_, hrun, rfl, clashes_bounded hrun⟩

end Life
end Guess
