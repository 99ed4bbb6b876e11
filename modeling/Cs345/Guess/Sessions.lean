import Cs345.Guess.Rounds
import Cs345.Guess.Threads

namespace Guess

section Sessions

structure System where
  session : ℕ
  serving : Bool
  server : Process
  served : ℕ → ℕ → ThreadPc
  attached : ℕ → Bool
  client : ℕ → Process
  mem : ℕ → State

variable (sessions : ℕ → Session)

inductive Party where
  | server
  | client (k : ℕ)

inductive SystemStep (s : System) : Party → System → Prop
  | accept : s.serving = false →
      SystemStep s .server { s with
        serving := true
        server := s.server.opened (sessions s.session)
        mem := Function.update s.mem s.session (start (sessions s.session)) }
  | server {p : Process} : s.serving = true → ProcStep .server s.server p →
      SystemStep s .server { s with server := p }
  | serverRun {i : ℕ} {tid : Args} {m : State} : s.serving = true →
      s.server.thread i = .running tid →
      serverStep tid.toSession (s.mem s.session) tid.i = some m →
      SystemStep s .server { s with mem := Function.update s.mem s.session m }
  | serverExit {i : ℕ} {tid : Args} : s.serving = true → s.server.thread i = .running tid →
      (s.mem s.session).server tid.i = .exited →
      SystemStep s .server { s with server := s.server.go i (.exited tid) }
  | finish : s.serving = true → s.server.joined = s.server.temp.M →
      SystemStep s .server { s with
        session := s.session + 1
        serving := false
        server := { s.server with threadNo := 0 }
        served := Function.update s.served s.session s.server.thread
        mem := Function.update s.mem s.session { s.mem s.session with reported := true } }
  | attach {k : ℕ} : s.attached k = false → k < s.session ∨ k = s.session ∧ s.serving = true →
      SystemStep s (.client k) { s with
        attached := Function.update s.attached k true
        client := Function.update s.client k ((s.client k).opened (sessions k)) }
  | client {k : ℕ} {p : Process} : s.attached k = true → ProcStep .client (s.client k) p →
      SystemStep s (.client k) { s with client := Function.update s.client k p }
  | clientRun {k i : ℕ} {tid : Args} {m : State} : s.attached k = true →
      (s.client k).thread i = .running tid →
      clientStep tid.toSession (s.mem k) tid.i = some m →
      SystemStep s (.client k) { s with mem := Function.update s.mem k m }
  | clientExit {k i : ℕ} {tid : Args} : s.attached k = true →
      (s.client k).thread i = .running tid → (s.mem k).client tid.i = .exited →
      SystemStep s (.client k) { s with
        client := Function.update s.client k ((s.client k).go i (.exited tid)) }
  | clientGuessed {k : ℕ} : s.attached k = true → (s.client k).joined = (s.client k).temp.M →
      (s.mem k).guessed = false →
      SystemStep s (.client k) { s with
        mem := Function.update s.mem k { s.mem k with guessed := true } }

structure System.Boot (s : System) : Prop where
  session : s.session = 0
  serving : s.serving = false
  server : s.server.threadNo = 0
  attached : ∀ k, s.attached k = false
  client : ∀ k, (s.client k).threadNo = 0

def system : Machine System Party where
  init := System.Boot
  step := SystemStep sessions

def System.serverThread (s : System) (k : ℕ) : ℕ → ThreadPc :=
  if k = s.session then s.server.thread else s.served k

def System.Accepted (s : System) (k : ℕ) : Prop := k < s.session ∨ k = s.session ∧ s.serving = true

structure Sound (s : System) : Prop where
  idle : s.serving = false → s.server.threadNo = 0
  server : s.serving = true → Numbered (sessions s.session) s.server
  served : ∀ k < s.session, AllIds (sessions k) (s.served k)
  unattached : ∀ k, s.attached k = false → (s.client k).threadNo = 0
  client : ∀ k, s.attached k = true → Numbered (sessions k) (s.client k)

variable {sessions} {s s' : System} {a : Party}

theorem sound_boot (h : s.Boot) : Sound sessions s where
  idle _ := h.server
  server hs := by rw [h.serving] at hs; cases hs
  served k hk := by rw [h.session] at hk; exact absurd hk (Nat.not_lt_zero k)
  unattached k _ := h.client k
  client k hk := by rw [h.attached k] at hk; cases hk

theorem Sound.setServer (h : Sound sessions s) {p : Process} (hs : s.serving = true)
    (hp : Numbered (sessions s.session) p) : Sound sessions { s with server := p } where
  idle hidle := by rw [hs] at hidle; cases hidle
  server _ := hp
  served := h.served
  unattached := h.unattached
  client := h.client

theorem Sound.setClient (h : Sound sessions s) {k : ℕ} {p : Process} (hk : s.attached k = true)
    (hp : Numbered (sessions k) p) :
    Sound sessions { s with client := Function.update s.client k p } where
  idle := h.idle
  server := h.server
  served := h.served
  unattached j hj := by
    have hjk : j ≠ k := by
      rintro rfl
      rw [hk] at hj
      cases hj
    exact (congrArg Process.threadNo (Function.update_of_ne hjk _ _)).trans (h.unattached j hj)
  client j hj := by
    by_cases hjk : j = k
    · subst hjk
      simpa using hp
    · simpa [hjk] using h.client j hj

theorem Sound.setMem (h : Sound sessions s) (mem : ℕ → State) :
    Sound sessions { s with mem := mem } :=
  ⟨h.idle, h.server, h.served, h.unattached, h.client⟩

theorem sound_step (h : Sound sessions s) (hstep : SystemStep sessions s a s') :
    Sound sessions s' := by
  cases hstep with
  | accept hidle =>
    exact ⟨nofun, fun _ => numbered_opened _ (h.idle hidle), h.served, h.unattached, h.client⟩
  | server hs hp => exact h.setServer hs (numbered_step (h.server hs) hp)
  | serverRun _ _ _ => exact h.setMem _
  | serverExit hs hi _ => exact h.setServer hs ((h.server hs).exit hi)
  | finish hs hjoin =>
    refine ⟨fun _ => rfl, nofun, fun k hk => ?_, h.unattached, h.client⟩
    rcases Nat.lt_succ_iff_lt_or_eq.mp hk with hlt | rfl
    · simpa [Nat.ne_of_lt hlt] using h.served k hlt
    · simpa using (h.server hs).toAllIds hjoin
  | @attach k hfree _ =>
    refine ⟨h.idle, h.server, h.served, fun j hj => ?_, fun j hj => ?_⟩
    · have hjk : j ≠ k := by
        rintro rfl
        simp at hj
      simpa [hjk] using h.unattached j (by simpa [hjk] using hj)
    · by_cases hjk : j = k
      · subst hjk
        simpa using numbered_opened _ (h.unattached j hfree)
      · simpa [hjk] using h.client j (by simpa [hjk] using hj)
  | client hk hp => exact h.setClient hk (numbered_step (h.client _ hk) hp)
  | clientRun _ _ _ => exact h.setMem _
  | clientExit hk hi _ => exact h.setClient hk ((h.client _ hk).exit hi)
  | clientGuessed _ _ _ => exact h.setMem _

theorem sound_reachable (hs : (system sessions).Reachable s) : Sound sessions s :=
  hs.invariant (fun _ h => sound_boot h) fun _ _ _ _ h hstep => sound_step h hstep

inductive System.Takes (s : System) (k : ℕ) (tid : Args) : Prop
  | server {i : ℕ} : (s.serverThread k i).taken = some tid → Takes s k tid
  | client {i : ℕ} : s.attached k = true → ((s.client k).thread i).taken = some tid → Takes s k tid

structure ThreadIds (P : Session) (s : System) (k : ℕ) : Prop where
  server : Ids P (s.serverThread k)
  served : k < s.session → AllIds P (s.serverThread k)
  client : s.attached k = true → Ids P (s.client k).thread
  joined : s.attached k = true → (s.client k).joined = P.M → AllIds P (s.client k).thread
  bounds : ∀ tid, s.Takes k tid →
    tid.range ⊆ Finset.range P.N ∧ tid.semaphores ⊆ Finset.range (2 * P.M)
  same : ∀ tid tid', s.Takes k tid → s.Takes k tid' → tid.i = tid'.i →
    tid.range = tid'.range ∧ tid.semaphores = tid'.semaphores
  other : ∀ tid tid', s.Takes k tid → s.Takes k tid' → tid.i ≠ tid'.i →
    Disjoint tid.range tid'.range ∧ Disjoint tid.semaphores tid'.semaphores

theorem Sound.serverThread (h : Sound sessions s) {k : ℕ} (hk : s.Accepted k) :
    Ids (sessions k) (s.serverThread k) ∧
      (k < s.session → AllIds (sessions k) (s.serverThread k)) := by
  rcases hk with hlt | ⟨rfl, hs⟩
  · rw [System.serverThread, if_neg (Nat.ne_of_lt hlt)]
    exact ⟨(h.served k hlt).toIds, fun _ => h.served k hlt⟩
  · rw [System.serverThread, if_pos rfl]
    exact ⟨(h.server hs).toIds, fun hlt => absurd hlt (Nat.lt_irrefl _)⟩

theorem Sound.takes (h : Sound sessions s) {k : ℕ} (hk : s.Accepted k) {tid : Args}
    (ht : s.Takes k tid) : tid.toSession = sessions k ∧ tid.i < tid.M := by
  have hids {thread : ℕ → ThreadPc} {i : ℕ} (hi : Ids (sessions k) thread)
      (htid : (thread i).taken = some tid) : tid.toSession = sessions k ∧ tid.i < tid.M := by
    have hsession := hi.session i tid htid
    exact ⟨hsession, hsession ▸ (hi.lt i tid htid).2⟩
  cases ht with
  | server htid => exact hids (h.serverThread hk).1 htid
  | client hatt htid => exact hids (h.client k hatt).toIds htid

theorem thread_ids (hs : (system sessions).Reachable s) {k : ℕ} (hk : s.Accepted k) :
    ThreadIds (sessions k) s k := by
  have h := sound_reachable hs
  obtain ⟨hserver, hserved⟩ := h.serverThread hk
  refine ⟨hserver, hserved, fun hatt => (h.client k hatt).toIds, fun hatt hjoin => ?_,
    fun tid ht => ?_, fun tid tid' ht ht' hi => ?_, fun tid tid' ht ht' hi => ?_⟩
  · have hn := h.client k hatt
    exact hn.toAllIds (hjoin.trans (congrArg Session.M hn.temp.symm))
  · obtain ⟨hsession, hlt⟩ := h.takes hk ht
    rw [← hsession]
    exact ⟨range_subset hlt, semaphores_subset hlt⟩
  · exact shares_same ((h.takes hk ht).1.trans (h.takes hk ht').1.symm) hi
  · obtain ⟨hsession, hlt⟩ := h.takes hk ht
    obtain ⟨hsession', hlt'⟩ := h.takes hk ht'
    have heq := hsession.trans hsession'.symm
    exact shares_other heq hlt (heq ▸ hlt') hi

def idleProcess : Process := ⟨⟨sample, 0⟩, 0, none, 0, 0, fun _ => .unborn⟩

def idleSystem : System where
  session := 0
  serving := false
  server := idleProcess
  served _ _ := .unborn
  attached _ := false
  client _ := idleProcess
  mem _ := start sample

theorem second_thread_first : ∃ s, (system fun _ => sample).Reachable s ∧
    (s.serverThread 0 1).id = some 0 ∧ (s.serverThread 0 0).id = some 1 ∧
    ThreadIds sample s 0 := by
  have h0 : (system fun _ => sample).Reachable idleSystem :=
    .init ⟨rfl, rfl, rfl, fun _ => rfl, fun _ => rfl⟩
  have h1 := h0.step (.accept rfl)
  have h2 := h1.step (.server rfl (.create Nat.zero_lt_two))
  have h3 := h2.step (.server rfl (.create Nat.one_lt_two))
  have h4 := h3.step (.server rfl (@ProcStep.serverLock _ _ 1 rfl rfl rfl))
  have h5 := h4.step (.server rfl (@ProcStep.serverCopy _ _ 1 rfl rfl))
  have h6 := h5.step (.server rfl (@ProcStep.draw _ _ 1 _ rfl))
  have h7 := h6.step (.server rfl (@ProcStep.count _ _ 1 _ _ rfl))
  have h8 := h7.step (.server rfl (@ProcStep.unlock _ _ 1 _ rfl))
  have h9 := h8.step (.server rfl (@ProcStep.serverLock _ _ 0 rfl rfl rfl))
  have h10 := h9.step (.server rfl (@ProcStep.serverCopy _ _ 0 rfl rfl))
  have h11 := h10.step (.server rfl (@ProcStep.draw _ _ 0 _ rfl))
  have h12 := h11.step (.server rfl (@ProcStep.count _ _ 0 _ _ rfl))
  exact ⟨_, h12, rfl, rfl, thread_ids h12 (.inr ⟨rfl, rfl⟩)⟩

end Sessions

section Memory
variable {sessions : ℕ → Session} {s s' : System} {a : Party} {P : Session} {m m' : State} {i : ℕ}

structure Keeps (m m' : State) : Prop where
  server : ∀ j, m.server j = .exited → m'.server j = .exited
  client : ∀ j, m.client j = .exited → m'.client j = .exited
  reported : m'.reported = m.reported

theorem serverMove_update (h : ServerMove P m i m') :
    m.server i ≠ .exited ∧ (∃ pc, m'.server = Function.update m.server i pc) ∧
      m'.client = m.client ∧ m'.reported = m.reported := by
  cases h
  all_goals
    rename m.server i = _ => hpc
    exact ⟨by simp [hpc], ⟨_, rfl⟩, rfl, rfl⟩

theorem clientMove_update (h : ClientMove P m i m') :
    m.client i ≠ .exited ∧ (∃ pc, m'.client = Function.update m.client i pc) ∧
      m'.server = m.server ∧ m'.reported = m.reported := by
  cases h
  all_goals
    rename m.client i = _ => hpc
    exact ⟨by simp [hpc], ⟨_, rfl⟩, rfl, rfl⟩

theorem keeps_server (h : serverStep P m i = some m') : Keeps m m' := by
  obtain ⟨hlive, ⟨pc, hserver⟩, hclient, hreported⟩ := serverMove_update (serverStep_iff.mp h)
  refine ⟨fun j hj => ?_, fun j hj => by rw [hclient, hj], hreported⟩
  have hji : j ≠ i := fun heq => hlive (heq ▸ hj)
  rw [hserver, Function.update_of_ne hji, hj]

theorem keeps_client (h : clientStep P m i = some m') : Keeps m m' := by
  obtain ⟨hlive, ⟨pc, hclient⟩, hserver, hreported⟩ := clientMove_update (clientStep_iff.mp h)
  refine ⟨fun j hj => by rw [hserver, hj], fun j hj => ?_, hreported⟩
  have hji : j ≠ i := fun heq => hlive (heq ▸ hj)
  rw [hclient, Function.update_of_ne hji, hj]

theorem procStep_exited {side : Side} {p p' : Process} (h : ProcStep side p p') {tid : Args}
    (hi : p'.thread i = .exited tid) : p.thread i = .exited tid := by
  have hgo {j : ℕ} {pc : ThreadPc} (h : (p.go j pc).thread i = .exited tid)
      (hpc : pc ≠ .exited tid) : p.thread i = .exited tid := by
    change Function.update p.thread j pc i = .exited tid at h
    by_cases hij : i = j
    · subst hij
      rw [Function.update_self] at h
      exact absurd h hpc
    · rwa [Function.update_of_ne hij] at h
  cases h with
  | join _ _ _ => exact hi
  | _ => exact hgo hi nofun

structure Follows (sessions : ℕ → Session) (s : System) : Prop where
  reached : ∀ k, s.Accepted k → (protocol (sessions k)).Reachable (s.mem k)
  unreported : s.serving = true → (s.mem s.session).reported = false
  server : s.serving = true → ∀ i tid, s.server.thread i = .exited tid →
    (s.mem s.session).server tid.i = .exited
  attached : ∀ k, s.attached k = true → s.Accepted k
  client : ∀ k, s.attached k = true → ∀ i tid, (s.client k).thread i = .exited tid →
    (s.mem k).client tid.i = .exited

theorem Follows.run (h : Follows sessions s) {k : ℕ} (hk : s.Accepted k) {l : Actor}
    (hstep : (protocol (sessions k)).step (s.mem k) l m) (hkeep : Keeps (s.mem k) m) :
    Follows sessions { s with mem := Function.update s.mem k m } := by
  have hmem (j : ℕ) : Keeps (s.mem j) (Function.update s.mem k m j) := by
    by_cases hjk : j = k
    · subst hjk
      simpa using hkeep
    · rw [Function.update_of_ne hjk]
      exact ⟨fun _ h => h, fun _ h => h, rfl⟩
  refine ⟨fun j hj => ?_, fun hs => ?_, fun hs i tid hi => ?_, h.attached, fun j hj i tid hi => ?_⟩
  · by_cases hjk : j = k
    · subst hjk
      simpa using (h.reached j hk).step hstep
    · simpa [hjk] using h.reached j hj
  · exact ((hmem _).reported).trans (h.unreported hs)
  · exact (hmem _).server _ (h.server hs i tid hi)
  · exact (hmem _).client _ (h.client j hj i tid hi)

theorem follows_boot (h : s.Boot) : Follows sessions s where
  reached k hk := by
    rcases hk with hlt | ⟨-, hs⟩
    · rw [h.session] at hlt
      exact absurd hlt (Nat.not_lt_zero k)
    · rw [h.serving] at hs
      cases hs
  unreported hs := by rw [h.serving] at hs; cases hs
  server hs := by rw [h.serving] at hs; cases hs
  attached k hk := by rw [h.attached k] at hk; cases hk
  client k hk := by rw [h.attached k] at hk; cases hk

theorem exited_of_joined {p : Process} (exited : ℕ → Prop) (hn : Numbered P p)
    (hjoin : p.joined = p.temp.M) (hexit : ∀ i tid, p.thread i = .exited tid → exited tid.i) :
    ∀ j < P.M, exited j := by
  intro j hj
  obtain ⟨i, tid, htid, rfl⟩ := (hn.toAllIds hjoin).all j hj
  obtain ⟨t, ht⟩ := hn.joined i (by rw [hjoin, hn.temp]; exact hn.taken_lt htid)
  rw [ht] at htid
  obtain rfl := Option.some.inj htid
  exact hexit i t ht

theorem follows_server (hsound : Sound sessions s) (h : Follows sessions s)
    (hstep : SystemStep sessions s .server s') : Follows sessions s' := by
  cases hstep with
  | accept hidle =>
    have hlt {k : ℕ} (hk : s.Accepted k) : k < s.session :=
      hk.resolve_right fun hs => by simp [hidle] at hs
    refine ⟨fun k hk => ?_, fun _ => ?_, fun _ i tid hi => ?_,
      fun k hk => .inl (hlt (h.attached k hk)), fun k hk i tid hi => ?_⟩
    · rcases hk with hk | ⟨rfl, -⟩
      · simpa [Nat.ne_of_lt hk] using h.reached k (.inl hk)
      · simpa using Machine.Reachable.init (M := protocol (sessions s.session)) rfl
    · simp [start]
    · cases hi
    · have hne := Nat.ne_of_lt (hlt (h.attached k hk))
      simpa [hne] using h.client k hk i tid hi
  | server hs hp =>
    exact ⟨h.reached, h.unreported, fun hs i tid hi => h.server hs i tid (procStep_exited hp hi),
      h.attached, h.client⟩
  | @serverRun i tid m hs hi hm =>
    have htaken : (s.server.thread i).taken = some tid := by rw [hi]; rfl
    have hids := (hsound.server hs).toIds
    have hsession := hids.session i tid htaken
    refine h.run (.inr ⟨rfl, hs⟩) (l := .server tid.i) ?_ (keeps_server hm)
    exact (if_pos (hids.lt i tid htaken).2).trans (hsession ▸ hm)
  | @serverExit i tid hs hi hexit =>
    refine ⟨h.reached, h.unreported, fun _ j t hj => ?_, h.attached, h.client⟩
    by_cases hji : j = i
    · subst hji
      obtain rfl : tid = t := by simpa [Process.go] using hj
      exact hexit
    · exact h.server hs j t (by simpa [Process.go, hji] using hj)
  | finish hs hjoin =>
    have hexited := exited_of_joined (fun j => (s.mem s.session).server j = .exited)
      (hsound.server hs) hjoin (h.server hs)
    have hnow : s.Accepted s.session := .inr ⟨rfl, hs⟩
    refine ⟨fun k hk => ?_, fun hs => absurd hs Bool.false_ne_true,
      fun hs => absurd hs Bool.false_ne_true, fun k hk => ?_, fun k hk i tid hi => ?_⟩
    · have hlt : k < s.session + 1 := hk.resolve_right fun hk => by simp at hk
      rcases Nat.lt_succ_iff_lt_or_eq.mp hlt with hlt | rfl
      · simpa [Nat.ne_of_lt hlt] using h.reached k (.inl hlt)
      · have hstep : (protocol (sessions s.session)).step (s.mem s.session) .serverMain
            { s.mem s.session with reported := true } := if_pos ⟨h.unreported hs, hexited⟩
        simpa using (h.reached _ hnow).step hstep
    · rcases h.attached k hk with hlt | ⟨rfl, -⟩
      · exact .inl (Nat.lt_succ_of_lt hlt)
      · exact .inl (Nat.lt_succ_self _)
    · by_cases hks : k = s.session
      · subst hks
        simpa using h.client _ hk i tid hi
      · simpa [hks] using h.client k hk i tid hi

theorem follows_client (hsound : Sound sessions s) (h : Follows sessions s) {k : ℕ}
    (hstep : SystemStep sessions s (.client k) s') : Follows sessions s' := by
  have hset {p : Process} (hp : ∀ i tid, p.thread i = .exited tid → (s.mem k).client tid.i = .exited)
      (j : ℕ) (hj : s.attached j = true) (i : ℕ) (tid : Args)
      (hi : (Function.update s.client k p j).thread i = .exited tid) :
      (s.mem j).client tid.i = .exited := by
    by_cases hjk : j = k
    · subst hjk
      exact hp i tid (by simpa using hi)
    · exact h.client j hj i tid (by simpa [hjk] using hi)
  cases hstep with
  | attach _ hacc =>
    refine ⟨h.reached, h.unreported, h.server, fun j hj => ?_, fun j hj i tid hi => ?_⟩
    · by_cases hjk : j = k
      · exact hjk ▸ hacc
      · exact h.attached j (by simpa [hjk] using hj)
    · by_cases hjk : j = k
      · subst hjk
        simp [Process.opened] at hi
      · exact h.client j (by simpa [hjk] using hj) i tid (by simpa [hjk] using hi)
  | client hk hp =>
    exact ⟨h.reached, h.unreported, h.server, h.attached,
      hset fun i tid hi => h.client k hk i tid (procStep_exited hp hi)⟩
  | @clientRun _ i tid m hk hi hm =>
    have htaken : ((s.client k).thread i).taken = some tid := by rw [hi]; rfl
    have hids := (hsound.client k hk).toIds
    have hsession := hids.session i tid htaken
    refine h.run (h.attached k hk) (l := .client tid.i) ?_ (keeps_client hm)
    exact (if_pos (hids.lt i tid htaken).2).trans (hsession ▸ hm)
  | @clientExit _ i tid hk hi hexit =>
    refine ⟨h.reached, h.unreported, h.server, h.attached, hset fun j t hj => ?_⟩
    by_cases hji : j = i
    · subst hji
      obtain rfl : tid = t := by simpa [Process.go] using hj
      exact hexit
    · exact h.client k hk j t (by simpa [Process.go, hji] using hj)
  | clientGuessed hk hjoin hguess =>
    have hexited := exited_of_joined (fun j => (s.mem k).client j = .exited)
      (hsound.client k hk) hjoin (h.client k hk)
    exact h.run (h.attached k hk) (l := .clientMain) (if_pos ⟨hguess, hexited⟩)
      ⟨fun _ h => h, fun _ h => h, rfl⟩

theorem follows_reachable (hs : (system sessions).Reachable s) : Follows sessions s := by
  refine hs.invariant (fun _ h => follows_boot h) fun s a s' hs h hstep => ?_
  cases a with
  | server => exact follows_server (sound_reachable hs) h hstep
  | client k => exact follows_client (sound_reachable hs) h hstep

theorem session_follows_protocol (hs : (system sessions).Reachable s) {k : ℕ}
    (hk : s.Accepted k) : (protocol (sessions k)).Reachable (s.mem k) :=
  (follows_reachable hs).reached k hk

end Memory
end Guess
