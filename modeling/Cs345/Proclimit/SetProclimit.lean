import Cs345.Proclimit.Task

namespace Proclimit
variable {R : Type}

def EINVAL : ℤ := 22

-- the recursion is bounded by `depth` here; `list_for_each` is the fold over `children`
def setproclimitDump : ℕ → Heap R → TaskPtr → ℤ → ℤ → ℤ → Option (Heap R)
  | 0, _, _, _, _, _ => none
  | depth + 1, h, cur, root_pid, limit, interval =>
    match h cur with
    | none => none
    | some t =>
      t.children.foldlM
        (fun h childTask => setproclimitDump depth h childTask root_pid limit interval)
        (Function.update h cur (some (t.setLimits root_pid limit interval)))

def findProcess (k : Kernel R) (pid : ℤ) : Option TaskPtr :=
  k.processes.find? fun p => (k.task p).any fun t => t.pid = pid

def dumpFrom (depth : ℕ) (k : Kernel R) (p : TaskPtr) (limit interval : ℤ) :
    Option (ℤ × Kernel R) :=
  match k.task p with
  | none => none
  | some t =>
    (setproclimitDump depth k.task p t.pid limit interval).map fun h => (0, { k with task := h })

def sysSetproclimit (depth : ℕ) (k : Kernel R) (pid limit interval : ℤ) :
    Option (ℤ × Kernel R) :=
  if limit > interval then some (-EINVAL, k)
  else if pid = -1 then dumpFrom depth k k.current limit interval
  else if pid > -1 then
    match findProcess k pid with
    | none => some (-EINVAL, k)
    | some p => dumpFrom depth k p limit interval
  else if pid < -1 then some (-EINVAL, k)
  else some (0, k)

section Dump
variable (root limit interval : ℤ)

def visit (h : Heap R) (p : TaskPtr) : Option (Heap R) :=
  (h p).map fun t => Function.update h p (some (t.setLimits root limit interval))

variable {root limit interval} {h h' : Heap R} {p : TaskPtr}

theorem visit_kids (hv : visit root limit interval h p = some h') : kids h' = kids h := by
  simp only [visit, Option.map_eq_some_iff] at hv
  obtain ⟨t, ht, rfl⟩ := hv
  funext q
  by_cases hq : q = p
  · subst hq; simp [kids, ht]
  · simp [kids, hq]

theorem dump_eq_traverse (ks : TaskPtr → List TaskPtr) (n : ℕ) : ∀ (h : Heap R) (p : TaskPtr),
    kids h = ks →
    setproclimitDump n h p root limit interval =
        Forest.traverse ks (visit root limit interval) n h p ∧
      ∀ h', setproclimitDump n h p root limit interval = some h' → kids h' = ks := by
  induction n with
  | zero => exact fun h p _ => ⟨rfl, nofun⟩
  | succ n ih =>
    intro h p hks
    have hlist (l : List TaskPtr) : ∀ h : Heap R, kids h = ks →
        l.foldlM (fun h c => setproclimitDump n h c root limit interval) h =
            l.foldlM (Forest.traverse ks (visit root limit interval) n) h ∧
          ∀ h', l.foldlM (fun h c => setproclimitDump n h c root limit interval) h = some h' →
            kids h' = ks := by
      induction l with
      | nil => exact fun h hk => ⟨rfl, fun h' he => by cases he; exact hk⟩
      | cons c l ihl =>
        intro h hk
        obtain ⟨heq, hkeep⟩ := ih h c hk
        simp only [List.foldlM_cons, ← heq]
        cases hd : setproclimitDump n h c root limit interval with
        | none => exact ⟨rfl, nofun⟩
        | some h1 => exact ihl h1 (hkeep h1 hd)
    cases ht : h p with
    | none => simp [setproclimitDump, Forest.traverse, visit, ht]
    | some t =>
      have hv : visit root limit interval h p =
          some (Function.update h p (some (t.setLimits root limit interval))) := by
        simp [visit, ht]
      have hch : ks p = t.children := by rw [← hks]; simp [kids, ht]
      obtain ⟨heq, hkeep⟩ := hlist t.children _ ((visit_kids hv).trans hks)
      simp only [setproclimitDump, Forest.traverse, ht, hv, hch, Option.bind_some]
      exact ⟨heq, hkeep⟩

theorem foldlM_visit (l : List TaskPtr) : ∀ h h' : Heap R,
    l.foldlM (visit root limit interval) h = some h' →
      ∀ p, h' p = if p ∈ l then (h p).map (·.setLimits root limit interval) else h p := by
  induction l with
  | nil => intro h h' he p; cases he; simp
  | cons q l ih =>
    intro h h' he p
    rw [List.foldlM_cons] at he
    obtain ⟨h1, hv, he⟩ := Option.bind_eq_some_iff.mp he
    simp only [visit, Option.map_eq_some_iff] at hv
    obtain ⟨t, ht, rfl⟩ := hv
    rw [ih _ h' he p]
    by_cases hq : p = q
    · subst hq
      simp [ht, TaskStruct.setLimits]
    · simp [hq]

theorem dump_effect {n : ℕ} (hd : setproclimitDump n h p root limit interval = some h') :
    (∀ q, Forest.Reaches (kids h) p q → h' q = (h q).map (·.setLimits root limit interval)) ∧
    (∀ q, ¬ Forest.Reaches (kids h) p q → h' q = h q) := by
  rw [(dump_eq_traverse (kids h) n h p rfl).1] at hd
  obtain ⟨l, hl, hf⟩ := Forest.traverse_visits _ hd
  have hq := foldlM_visit l h h' hf
  refine ⟨fun q hr => ?_, fun q hr => ?_⟩
  · rw [hq q, if_pos ((hl q).mpr hr)]
  · rw [hq q, if_neg (fun hm => hr ((hl q).mp hm))]

theorem dump_total (root limit interval : ℤ) {k : Kernel R} (hk : k.WellFormed) :
    ∃ depth : TaskPtr → ℕ, ∀ p n, (k.task p).isSome = true → depth p < n →
      ∃ h', setproclimitDump n k.task p root limit interval = some h' := by
  obtain ⟨rank, hrank⟩ := hk.exists_rank
  refine ⟨rank, fun p n hp hn => ?_⟩
  have hvisit (h : Heap R) (q : TaskPtr) (hI : ∀ q, (k.task q).isSome = true → (h q).isSome = true)
      (hq : (k.task q).isSome = true) : ∃ h', visit root limit interval h q = some h' ∧
        ∀ q, (k.task q).isSome = true → (h' q).isSome = true := by
    obtain ⟨t, ht⟩ := Option.isSome_iff_exists.mp (hI q hq)
    refine ⟨Function.update h q (some (t.setLimits root limit interval)), by simp [visit, ht],
      fun r hr => ?_⟩
    by_cases hrq : r = q
    · simp [hrq]
    · simpa [hrq] using hI r hr
  obtain ⟨h', hd, -⟩ := Forest.traverse_total _ hrank (fun q c hc => hk.children q c hc) hvisit p hp
    hn k.task (fun _ h => h)
  exact ⟨h', (dump_eq_traverse _ n k.task p rfl).1.trans hd⟩

end Dump

def Targets (k : Kernel R) (pid : ℤ) (p : TaskPtr) : Prop :=
  (pid = -1 ∧ p = k.current) ∨
    (pid > -1 ∧ p ∈ k.processes ∧ ∃ t, k.task p = some t ∧ t.pid = pid)

structure SetEffect (k k' : Kernel R) (p : TaskPtr) (limit interval : ℤ) : Prop where
  inside : ∀ t, k.task p = some t → ∀ q, Forest.Reaches (kids k.task) p q →
    k'.task q = (k.task q).map (·.setLimits t.pid limit interval)
  outside : ∀ q, ¬ Forest.Reaches (kids k.task) p q → k'.task q = k.task q
  processes : k'.processes = k.processes
  current : k'.current = k.current

variable {k k' : Kernel R} {pid limit interval ret : ℤ} {p q : TaskPtr} {n : ℕ}

theorem Kernel.WellFormed.targets_live (hk : k.WellFormed) (h : Targets k pid p) :
    (k.task p).isSome = true := by
  rcases h with ⟨-, rfl⟩ | ⟨-, hp, -⟩
  · exact hk.current
  · exact hk.processes p hp

theorem Kernel.WellFormed.targets_unique (hk : k.WellFormed) (h : Targets k pid p)
    (h' : Targets k pid q) : p = q := by
  rcases h with ⟨rfl, rfl⟩ | ⟨hpos, -, t, ht, hpid⟩ <;> rcases h' with ⟨h1, rfl⟩ | ⟨h1, -, u, hu, hpid'⟩
  · rfl
  · omega
  · omega
  · exact hk.pids p q t u ht hu (hpid.trans hpid'.symm)

theorem findProcess_some (h : findProcess k pid = some p) :
    p ∈ k.processes ∧ ∃ t, k.task p = some t ∧ t.pid = pid := by
  refine ⟨List.mem_of_find?_eq_some h, ?_⟩
  simpa [Option.any_eq_true] using List.find?_some h

theorem findProcess_none (h : findProcess k pid = none) :
    ¬ ∃ p ∈ k.processes, ∃ t, k.task p = some t ∧ t.pid = pid := by
  rintro ⟨p, hp, t, ht, hpid⟩
  have := List.find?_eq_none.mp h p hp
  simp [ht, hpid] at this

theorem findProcess_eq {t : TaskStruct R} (hp : p ∈ k.processes) (ht : k.task p = some t)
    (hpids : ∀ q ∈ k.processes, ∀ u, k.task q = some u → u.pid = t.pid → q = p) :
    findProcess k t.pid = some p := by
  cases hf : findProcess k t.pid with
  | none => exact absurd ⟨p, hp, t, ht, rfl⟩ (findProcess_none hf)
  | some q =>
    obtain ⟨hq, u, hu, hup⟩ := findProcess_some hf
    exact congrArg some (hpids q hq u hu hup)

theorem dumpFrom_effect (h : dumpFrom n k p limit interval = some (ret, k')) :
    ret = 0 ∧ SetEffect k k' p limit interval := by
  unfold dumpFrom at h
  split at h
  · cases h
  next t ht =>
    obtain ⟨h1, hd, he⟩ := Option.map_eq_some_iff.mp h
    cases he
    obtain ⟨hin, hout⟩ := dump_effect hd
    refine ⟨rfl, fun u hu q hq => ?_, hout, rfl, rfl⟩
    rw [ht] at hu
    cases hu
    exact hin q hq

theorem dumpFrom_total (hk : k.WellFormed) (limit interval : ℤ) :
    ∃ depth : TaskPtr → ℕ, ∀ p n, (k.task p).isSome = true → depth p < n →
      ∃ k', dumpFrom n k p limit interval = some (0, k') := by
  have hex (root : ℤ) := dump_total root limit interval hk
  choose depth hdepth using hex
  refine ⟨fun p => depth (((k.task p).map (·.pid)).getD 0) p, fun p n hp hn => ?_⟩
  obtain ⟨t, ht⟩ := Option.isSome_iff_exists.mp hp
  simp only [ht, Option.map_some, Option.getD_some] at hn
  obtain ⟨h', hd⟩ := hdepth t.pid p n hp hn
  exact ⟨{ k with task := h' }, by simp [dumpFrom, ht, hd]⟩

theorem sysSetproclimit_cases (h : sysSetproclimit n k pid limit interval = some (ret, k')) :
    (ret = -EINVAL ∧ k' = k ∧ ¬ (limit ≤ interval ∧ (pid = -1 ∨
      pid > -1 ∧ ∃ p ∈ k.processes, ∃ t, k.task p = some t ∧ t.pid = pid))) ∨
    (ret = 0 ∧ limit ≤ interval ∧ ∃ p, Targets k pid p ∧ SetEffect k k' p limit interval) := by
  unfold sysSetproclimit at h
  split_ifs at h with h1 h2 h3 h4
  · cases h
    exact .inl ⟨rfl, rfl, fun hc => absurd hc.1 (by omega)⟩
  · obtain ⟨hr, he⟩ := dumpFrom_effect h
    exact .inr ⟨hr, by omega, _, .inl ⟨h2, rfl⟩, he⟩
  · split at h
    next hf =>
      cases h
      refine .inl ⟨rfl, rfl, fun hc => ?_⟩
      rcases hc.2 with hc | ⟨-, hc⟩
      · exact h2 hc
      · exact findProcess_none hf hc
    next p hf =>
      obtain ⟨hr, he⟩ := dumpFrom_effect h
      exact .inr ⟨hr, by omega, p, .inr ⟨h3, findProcess_some hf⟩, he⟩
  · cases h
    refine .inl ⟨rfl, rfl, fun hc => ?_⟩
    rcases hc.2 with hc | ⟨hc, -⟩ <;> omega
  · omega

theorem sysSetproclimit_total (hk : k.WellFormed) (pid limit interval : ℤ) :
    ∃ depth, ∀ n, depth ≤ n → ∃ ret k', sysSetproclimit n k pid limit interval = some (ret, k') := by
  obtain ⟨depth, hdepth⟩ := dumpFrom_total hk limit interval
  have hfrom (p : TaskPtr) (hp : (k.task p).isSome = true) (n : ℕ) (hn : depth p + 1 ≤ n) :
      ∃ ret k', dumpFrom n k p limit interval = some (ret, k') :=
    ⟨0, hdepth p n hp hn⟩
  unfold sysSetproclimit
  split_ifs with h1 h2 h3 h4
  · exact ⟨0, fun n _ => ⟨_, _, rfl⟩⟩
  · exact ⟨_, hfrom k.current hk.current⟩
  · cases hf : findProcess k pid with
    | none => exact ⟨0, fun n _ => ⟨_, _, rfl⟩⟩
    | some p => exact ⟨_, hfrom p (hk.processes p (findProcess_some hf).1)⟩
  · exact ⟨0, fun n _ => ⟨_, _, rfl⟩⟩
  · exact ⟨0, fun n _ => ⟨_, _, rfl⟩⟩

theorem setproclimit_effect (k : ProcessState R) (pid limit interval : ℤ) :
    ∃ depth, ∀ n, depth ≤ n → ∃ ret k',
      sysSetproclimit n k.toKernel pid limit interval = some (ret, k') ∧
      (ret = 0 ∨ ret = -EINVAL) ∧
      (ret = 0 ↔ limit ≤ interval ∧ (pid = -1 ∨
        pid > -1 ∧ ∃ p ∈ k.processes, ∃ t, k.task p = some t ∧ t.pid = pid)) ∧
      (ret = 0 → ∀ p, Targets k.toKernel pid p → SetEffect k.toKernel k' p limit interval) ∧
      (ret = -EINVAL → k' = k.toKernel) := by
  obtain ⟨depth, hdepth⟩ := sysSetproclimit_total k.wellFormed pid limit interval
  refine ⟨depth, fun n hn => ?_⟩
  obtain ⟨ret, k', h⟩ := hdepth n hn
  refine ⟨ret, k', h, ?_⟩
  rcases sysSetproclimit_cases h with ⟨rfl, rfl, hno⟩ | ⟨rfl, hle, p, hp, he⟩
  · refine ⟨.inr rfl, ⟨fun h0 => absurd h0 (by decide), fun hc => absurd hc hno⟩,
      fun h0 => absurd h0 (by decide), fun _ => rfl⟩
  · refine ⟨.inl rfl, ⟨fun _ => ⟨hle, ?_⟩, fun _ => rfl⟩, fun _ q hq => ?_,
      fun h0 => absurd h0 (by decide)⟩
    · rcases hp with ⟨hm, -⟩ | ⟨hpos, hmem, ht⟩
      · exact .inl hm
      · exact .inr ⟨hpos, p, hmem, ht⟩
    · exact k.wellFormed.targets_unique hp hq ▸ he

end Proclimit
