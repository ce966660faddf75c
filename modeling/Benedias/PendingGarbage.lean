import Benedias.Shutdown
import Benedias.CollectorLifetime

/-! The collector does not sleep on pending garbage: whenever a registered client has something
on its gc list, the semaphore is up, or a signal is on its way, or `Run` is going to look at
the list. -/
namespace Benedias
namespace CollectorThread

open Interleaving

variable {T C : Type}

/-- `curr_id`. -/
def CollectorPc.cursor : CollectorPc C → ℕ
  | .lock curr _ | .test curr _ _ | .ident curr _ _ | .deletes curr _ _ | .cas curr _ _
  | .unlock curr _ _ | .collect curr _ _ | .inside curr _ _ | .release curr _ _ => curr
  | .idle | .failed => 0

/-- The client that the thread has given a number to, but has not made known yet. -/
def ClientPc.fresh : ClientPc C → Option C
  | .regState c | .regThread c => some c
  | _ => none

/-- `RegisterClient` has set `collector_thread`, and `DeregisterClient` is not called. -/
def Known (s : Conf T C) (c : C) : Prop := s.life c = .live ∨ ∃ t, s.pc t = .regUnlock c

/-- The pass still comes to the client, or there will be another one. -/
def CollectorPc.attends (c : C) (id : ℕ) (p : CollectorPc C) : Prop :=
  p.pending = some true ∨ p.awaits c id ∨ p.Inside c

/-- The cursor and the numbers in the vectors, and the numbers that are to come. -/
structure Ahead (ids : C → ℕ) (s : Conf T C) : Prop where
  cursor : Cursor ids s
  behind : s.collector.cursor ≤ s.idValue
  newest : ∀ t c, (s.pc t).fresh = some c → s.collector.cursor < ids c

theorem ahead_start (ids : C → ℕ) : Ahead ids (start : Conf T C) :=
  ⟨cursor_start ids,Nat.le_refl _,fun _ _ h => nomatch h⟩

section Facts

variable {ids : C → ℕ} {s s' : Conf T C} {c : C} {t : T}

theorem Known.attached (hk : Known s c) : Attached s c :=
  hk.imp_right fun ⟨t,ht⟩ => ⟨t,.inr ht⟩

theorem Known.bound (hk : Known s c) (hi : Inv s) : s.bound c := by
  rcases hk with hl | ⟨t,hp⟩
  · have h := hi.lives c
    simp only [LifeOk,hl] at h
    exact h.2.1
  · have h := hi.threads t
    rw [hp] at h
    exact h.2.1

theorem CollectorPc.awaits_of_lt {p : CollectorPc C} {id : ℕ} (h : p.cursor < id)
    (hi : p ≠ .idle) (hf : p ≠ .failed) : p.awaits c id := by
  cases p with
  | idle => exact absurd rfl hi
  | failed => exact absurd rfl hf
  | deletes | cas => exact Nat.le_of_lt h
  | collect => exact .inr h
  | unlock curr pending clientp =>
    cases clientp with
    | none => exact h
    | some c' => exact .inr h
  | _ => exact h

theorem ClientPc.fresh_critical {p : ClientPc C} (h : p.fresh = some c) : p.critical := by
  cases p <;> first | rfl | cases h

theorem ClientPc.fresh_task {p : ClientPc C} (h : p.fresh = some c) :
    p.task t = some (c,.registering t) := by
  cases p <;> cases h <;> rfl

theorem ClientPc.unnumbered_task {p : ClientPc C} (h : p.unnumbered = some c) :
    p.task t = some (c,.registering t) := by
  cases p <;> cases h <;> rfl

theorem Inv.settled_fresh (hi : Inv s) (h : (s.pc t).fresh = some c) : Settled s c := by
  have hl := hi.tasks t c _ (ClientPc.fresh_task h)
  refine ⟨by simp [hl],fun t' h' => ?_⟩
  have hl' := hi.tasks t' c _ (ClientPc.unnumbered_task h')
  cases hl.symm.trans hl'
  cases hp : s.pc t <;> rw [hp] at h h' <;> first | (cases h; done) | cases h'

end Facts

section Steps

variable [DecidableEq C] {ids : C → ℕ} {s s' : Conf T C} {c : C}

/-- The cursor moves only while the collector has the lock, and to a number in `clientsID`. -/
theorem stepCollector_cursor_le (hi : Inv s) {ok left : Bool}
    (h : stepCollector s ok left = some s') : s'.collector.cursor ≤ s.collector.cursor ∨
      s.collector.critical ∧ s'.collector.cursor ∈ s.clientsID := by
  cases stepCollector_walk hi h with
  | take hc hx => exact .inr ⟨by rw [hc]; rfl,List.mem_of_getElem? hx⟩
  | finish hc => exact .inl (Nat.zero_le _)
  | lock hc | next hc | done hc | skip hc | empty hc | full hc | won hc | lost hc | unlock hc
  | call hc | ret hc | back hc =>
    left
    rw [hc]
    exact Nat.le_refl _

/-- The collector goes on attending to a client, or its pass ends with true. -/
theorem Cursor.attends_next (hcur : Cursor ids s) (hi : Inv s) (ha : Attached s c) {ok left : Bool}
    (hl : ok → left = false) (h : stepCollector s ok left = some s') (hd : s'.haveDeletes c)
    (hw : s.haveDeletes c → s.collector.attends c (ids c)) :
    s'.collector.attends c (ids c) ∨ ∃ curr, s.collector = .unlock curr true none := by
  have hnext := fun hd hw => hcur.awaits_next hi ha hd hw h
  cases stepCollector_walk hi h with
  | @ret curr pending c' hp =>
    left
    cases ok with
    | false => exact .inl rfl
    | true =>
      have hne : c ≠ c' := by
        rintro rfl
        simp [hl rfl] at hd
      have hw := hw (by simpa [hne] using hd)
      rw [hp] at hw
      rcases hw with hw | hw | hw
      · exact .inl hw
      · exact .inr (.inl hw)
      · exact absurd hw.symm hne
  | @finish curr pending hp =>
    rcases hw hd with hw' | hw' | hw'
    · rw [hp] at hw'
      obtain rfl := Option.some.inj hw'
      exact .inr ⟨curr,hp⟩
    · rcases hnext hd hw' with hn | ⟨_,_,he⟩
      · exact hn.2.elim
      · cases hp.symm.trans he
    · rw [hp] at hw'
      exact hw'.elim
  | @call curr pending c' hp =>
    left
    rcases hw hd with hw' | hw' | hw'
    · rw [hp] at hw'
      exact .inl hw'
    · rcases hnext hd hw' with hn | ⟨_,_,he⟩
      · exact .inr (.inl hn.2)
      · cases hp.symm.trans he
        exact .inr (.inr rfl)
    · rw [hp] at hw'
      exact hw'.elim
  | lock hp | next hp | done hp | skip hp | take hp | empty hp | full hp | won hp | lost hp
  | unlock hp | back hp =>
    left
    rcases hw hd with hw' | hw' | hw'
    · rw [hp] at hw'
      exact .inl hw'
    · rcases hnext hd hw' with hn | ⟨_,_,he⟩
      · exact .inr (.inl hn.2)
      · cases hp.symm.trans he
    · rw [hp] at hw'
      exact hw'.elim

variable [DecidableEq T] {t : T}

/-- The ways into the last steps of `RegisterClient`. -/
theorem stepClient_pc (h : stepClient s t = some s') : ∃ p, s'.pc = Function.update s.pc t p ∧
    (∀ c, p.fresh = some c → (s.pc t).fresh = some c ∨ s.pc t = .regId c) ∧
      ∀ c, p = .regUnlock c → s.pc t = .regThread c := by
  cases hp : s.pc t <;> simp only [stepClient,hp] at h
  case idle | failed => cases h
  case regLock | derLock | derCas =>
    split at h <;> cases h <;> exact ⟨_,rfl,by simp [ClientPc.fresh],by simp⟩
  case derFind =>
    split at h <;> cases h
    · exact ⟨_,rfl,by simp [ClientPc.fresh],by simp⟩
    · exact ⟨_,rfl,by split <;> simp [ClientPc.fresh],by split <;> simp⟩
  case regLoad | regCheck | derYield =>
    cases h
    exact ⟨_,rfl,by split <;> simp [ClientPc.fresh],by split <;> simp⟩
  all_goals
    cases h
    exact ⟨_,rfl,by simp [ClientPc.fresh],by simp⟩

theorem stepClient_fresh (h : stepClient s t = some s') {t' : T} (hf : (s'.pc t').fresh = some c) :
    (s.pc t').fresh = some c ∨ t' = t ∧ s.pc t = .regId c := by
  obtain ⟨p,hpc,hfr,-⟩ := stepClient_pc h
  rw [hpc] at hf
  by_cases ht : t' = t
  · subst ht
    rw [Function.update_self] at hf
    exact (hfr c hf).imp_right fun hp => ⟨rfl,hp⟩
  · rw [Function.update_of_ne ht] at hf
    exact .inl hf

/-- A client gets the number that `id_value` has been set to. -/
theorem Numbered.ident {ids' : C → ℕ} (hn : Numbered ids s) (hn' : Numbered ids' s') (hi' : Inv s')
    (h : stepClient s t = some s') (hp : s.pc t = .regId c) : ids' c = s'.idValue := by
  obtain ⟨l,hl,-⟩ : ClientPc.Listed ids s.clients s.clientsID (.regId c) :=
    hp ▸ hn.listed t (by rw [hp]; rfl)
  cases stepClient_lists h with
  | ident c' hp' hpc hc hd hv =>
    cases hp.symm.trans hp'
    have he := hn'.rest_of_critical hi' (t:=t) (by rw [hpc]; simp) (by rw [hpc]; simp [ClientPc.updating])
    rw [hd,hc,hl,List.map_append] at he
    simpa using (congrArg List.getLast? he).symm
  | quiet p hpc hq =>
    rw [hp] at hq
    cases hq.1
  | client c' hp' | erase c' ix hp' | eraseId c' ix hp' => cases hp.symm.trans hp'

theorem fire_ahead (hi : Inv s) (ha : Ahead ids s) {a : Label T C} (h : fire s a = some s')
    (hw : s.idValue+registers s a < 2^32) :
    ∃ ids', Ahead ids' s' ∧ ∀ c, Settled s c → ids' c = ids c := by
  obtain ⟨ids',hc,he⟩ := fire_cursor hi ha.cursor h hw
  have hv := fire_idValue hi h hw
  have hi' := fire_inv hi h
  -- the steps that leave the cursor and the fresh clients alone
  have hsame : s'.collector.cursor = s.collector.cursor →
      (∀ t c, (s'.pc t).fresh = some c → (s.pc t).fresh = some c) → Ahead ids' s' := by
    intro hcur hfr
    refine ⟨hc,by rw [hcur,hv]; exact Nat.le_add_right_of_le ha.behind,fun t c hf => ?_⟩
    rw [hcur,he c (hi.settled_fresh (hfr t c hf))]
    exact ha.newest t c (hfr t c hf)
  refine ⟨ids',?_,he⟩
  cases fire_cases hi h with
  | collector hs =>
    have m := stepCollector_move hi hs
    have hle := stepCollector_cursor_le hi hs
    refine ⟨hc,?_,fun t c hf => ?_⟩
    · rw [hv]
      rcases hle with hle | ⟨-,hm⟩
      · exact Nat.le_trans hle ha.behind
      · exact (ha.cursor.numbered.bounded _ hm).2
    · rw [m.pc] at hf
      rw [he c (hi.settled_fresh hf)]
      rcases hle with hle | ⟨hcr,-⟩
      · exact Nat.lt_of_le_of_lt hle (ha.newest t c hf)
      · cases (ClientPc.fresh_critical hf).symm.trans (hi.free_of_critical hcr t)
  | @client t s' hs =>
    obtain ⟨c,p,m⟩ := stepClient_move hi hs
    by_cases hp : ∃ c, s.pc t = .regId c
    · obtain ⟨c,hp⟩ := hp
      simp only [registers,hp,ClientPc.numbers] at hv
      refine ⟨hc,by rw [m.collector,hv]; exact Nat.le_succ_of_le ha.behind,fun t' c' hf => ?_⟩
      rw [m.collector]
      rcases stepClient_fresh hs hf with hf | ⟨rfl,hp'⟩
      · rw [he c' (hi.settled_fresh hf)]
        exact ha.newest t' c' hf
      · rw [ha.cursor.numbered.ident hc.numbered hi' hs hp',hv]
        exact Nat.lt_succ_of_le ha.behind
    · refine hsame (by rw [m.collector]) fun t' c' hf => ?_
      exact (stepClient_fresh hs hf).resolve_right fun hp' => hp ⟨c',hp'.2⟩
  | @register t c | @deregister t c =>
    refine hsame rfl fun t' c' hf => ?_
    by_cases ht : t' = t
    · simp [ht,ClientPc.fresh] at hf
    · simpa [ht] using hf
  | pass hidle => exact hsame (by rw [hidle]; rfl) fun _ _ hf => hf
  | enqueue | emptied => exact hsame rfl fun _ _ hf => hf

theorem stepClient_known (h : stepClient s t = some s') (hk : Known s' c) :
    Known s c ∨ s.pc t = .regThread c := by
  obtain ⟨p,hpc,-,hu⟩ := stepClient_pc h
  rcases hk with hl | ⟨t',ht'⟩
  · left
    cases hp : s.pc t <;> simp only [stepClient,hp] at h
    case idle | failed => cases h
    case regUnlock c' =>
      cases h
      by_cases hc : c = c'
      · exact .inr ⟨t,hc ▸ hp⟩
      · exact .inl (by simpa [hc] using hl)
    case derUnlock c' =>
      cases h
      by_cases hc : c = c'
      · simp [hc] at hl
      · exact .inl (by simpa [hc] using hl)
    case regLock | derLock | derCas | derFind => split at h <;> cases h <;> exact .inl hl
    all_goals
      cases h
      exact .inl hl
  · rw [hpc] at ht'
    by_cases ht : t' = t
    · subst ht
      rw [Function.update_self] at ht'
      exact .inr (hu c ht')
    · rw [Function.update_of_ne ht] at ht'
      exact .inl (.inr ⟨t',ht'⟩)

/-- A client becomes known when its `collector_thread` is set. -/
theorem known_back (hi : Inv s) {a : Label T C} (h : fire s a = some s') (hk : Known s' c) :
    Known s c ∨ ∃ t, a = .client t ∧ s.pc t = .regThread c := by
  cases fire_cases hi h with
  | @client t s' hs => exact (stepClient_known hs hk).imp_right fun hp => ⟨t,rfl,hp⟩
  | collector hs =>
    have m := stepCollector_move hi hs
    exact .inl (by simpa only [Known,m.life,m.pc] using hk)
  | @register t c' | @deregister t c' =>
    refine .inl (hk.imp (fun hl => ?_) fun ⟨t',ht'⟩ => ⟨t',?_⟩)
    · by_cases hc : c = c'
      · simp [hc] at hl
      · simpa [hc] using hl
    · by_cases ht : t' = t
      · simp [ht] at ht'
      · simpa [ht] using ht'
  | pass | enqueue | emptied => exact .inl hk

/-- The clients' own steps leave the gc lists and the collector alone. -/
theorem fire_clients (hi : Inv s) {a : Label T C} (h : fire s a = some s')
    (hp : a ≠ .pass) (hc : ∀ ok left, a ≠ .collector ok left) (he : ∀ c, a ≠ .enqueue c)
    (hm : ∀ c, a ≠ .emptied c) :
    s'.haveDeletes = s.haveDeletes ∧ s'.collector = s.collector := by
  cases fire_cases hi h with
  | client hs =>
    obtain ⟨c,p,m⟩ := stepClient_move hi hs
    exact ⟨stepClient_haveDeletes hs,m.collector⟩
  | register | deregister => exact ⟨rfl,rfl⟩
  | pass => exact absurd rfl hp
  | @collector ok left => exact absurd rfl (hc ok left)
  | @enqueue c => exact absurd rfl (he c)
  | @emptied c => exact absurd rfl (hm c)

end Steps

end CollectorThread
namespace CollectorRun

open Interleaving CollectorThread

/-- `Run` comes to a pass, or to its end, before it waits again. -/
def RunPc.turns : RunPc → Bool
  | .collect | .wait => false
  | _ => true

/-- The thread is going to signal. -/
def DeletePc.due {C : Type} (bound : C → Bool) : DeletePc C → Bool
  | .idle => false
  | .load c => bound c
  | .signal => true

variable {D T C : Type}

/-- `Run` waits, and nobody is going to wake it up. -/
def Asleep (s : Conf D T C) (bound : C → Bool) : Prop :=
  s.run = .wait ∧ s.sema = false ∧ ∀ d, (s.deleter d).due bound = false

/-- Somebody is going to look at the gc list of the client. -/
def Await (ids : C → ℕ) (s : Conf D T C) (c : C) : Prop :=
  s.sema ∨ s.run.turns ∨ (∃ d, (s.deleter d).due s.base.bound) ∨
    s.base.collector.attends c (ids c)

structure Watch (ids : C → ℕ) (s : Conf D T C) : Prop where
  ahead : Ahead ids s.base
  word : s.base.idValue < 2^32
  passing : s.run = .collect ↔ s.base.collector ≠ .idle
  await : s.active → ∀ c, Known s.base c → s.base.haveDeletes c → Await ids s c

variable {ids ids' : C → ℕ} {s s' : Conf D T C} {c : C}

theorem watch_start (ids : C → ℕ) : Watch ids (start : Conf D T C) where
  ahead := ahead_start ids
  word := by simp [start,CollectorThread.start]
  passing := by simp [start,CollectorThread.start]
  await ha := by cases ha

/-- The steps that leave the clients alone. -/
theorem Watch.keep (hw : Watch ids s) (hb : s'.base = s.base)
    (hp : s'.run = .collect ↔ s.run = .collect)
    (hk : s'.active → ∀ c, (s.active → Await ids s c) → Await ids s' c) : Watch ids s' where
  ahead := hb ▸ hw.ahead
  word := hb ▸ hw.word
  passing := by
    rw [hb,hp]
    exact hw.passing
  await ha c hc hd := by
    rw [hb] at hc hd
    exact hk ha c fun ha => hw.await ha c hc hd

theorem Watch.load [DecidableEq D] (hw : Watch ids s) {d : D} (hd : s.deleter d = .load c) :
    Watch ids { s with
      deleter := Function.update s.deleter d (if s.base.bound c then .signal else .idle) } := by
  refine hw.keep rfl Iff.rfl fun ha c' h => ?_
  rcases h ha with h | h | ⟨d',hd'⟩ | h
  · exact .inl h
  · exact .inr (.inl h)
  · refine .inr (.inr (.inl ⟨d',?_⟩))
    by_cases he : d' = d
    · subst he
      rw [hd] at hd'
      have hb : s.base.bound c = true := hd'
      simp [hb,DeletePc.due]
    · simpa [he] using hd'
  · exact .inr (.inr (.inr h))

theorem RunPc.cases_turns (r : RunPc) : r.turns ∨ r = .collect ∨ r = .wait := by
  cases r <;> simp [RunPc.turns]

/-- A step of a client that loses nobody who is going to look. -/
theorem Await.clients (h : Await ids s c) {b : CollectorThread.Conf T C}
    (hb : ∀ c, s.base.bound c → b.bound c) (hc : b.collector = s.base.collector)
    (he : ids' c = ids c) : Await ids' { s with base := b } c := by
  rcases h with h | h | ⟨d,hd⟩ | h
  · exact .inl h
  · exact .inr (.inl h)
  · refine .inr (.inr (.inl ⟨d,?_⟩))
    show (s.deleter d).due b.bound
    cases hp : s.deleter d <;> rw [hp] at hd
    case load c' => exact hb c' hd
    all_goals exact hd
  · refine .inr (.inr (.inr ?_))
    show b.collector.attends c (ids' c)
    rw [hc,he]
    exact h

variable [DecidableEq C]

/-- `RegisterClient` does not set the `collector_thread` of a client with something on its gc list
while nobody is going to look at it, and `id_value` does not wrap around. -/
def NoticedAt (s : Conf D T C) : ClientPc C → Prop
  | .regId _ => s.base.idValue+1 < 2^32
  | .regThread c => s.active → s.base.haveDeletes c →
    ¬Asleep s (Function.update s.base.bound c true)
  | _ => True

def Noticed (s : Conf D T C) : Label D T C → Prop
  | .clients (.client t) => NoticedAt s (s.base.pc t)
  | _ => True

section Decidable

variable [Fintype D]

instance (s : Conf D T C) (bound : C → Bool) : Decidable (Asleep s bound) := by
  unfold Asleep
  infer_instance

instance (s : Conf D T C) (p : ClientPc C) : Decidable (NoticedAt s p) := by
  cases p <;> unfold NoticedAt <;> infer_instance

instance (s : Conf D T C) (a : Label D T C) : Decidable (Noticed s a) :=
  match a with
  | .clients (.client t) => inferInstanceAs (Decidable (NoticedAt s (s.base.pc t)))
  | .clients (.register _ _) | .clients (.deregister _ _) | .clients .pass
  | .clients (.collector _ _) | .clients (.enqueue _) | .clients (.emptied _) | .run _ _
  | .delete _ _ | .deleter _ | .emptied _ | .signal | .stop _ | .owner => .isTrue trivial

end Decidable

theorem Noticed.registers {a : CollectorThread.Label T C} (hn : Noticed s (.clients a))
    (hv : s.base.idValue < 2^32) : s.base.idValue+CollectorThread.registers s.base a < 2^32 := by
  cases a with
  | client t =>
    simp only [CollectorThread.registers]
    cases hp : s.base.pc t with
    | regId c => simpa only [Noticed,hp,NoticedAt,ClientPc.numbers] using hn
    | _ => exact hv
  | _ => exact hv

/-- `Run` leaves `Collect` when the pass ends. -/
theorem next_collect {b b' : CollectorThread.Conf T C} (hi : CollectorThread.Inv b)
    {ok left : Bool} (h : stepCollector b ok left = some b') :
    next b.collector = .collect ↔ b'.collector ≠ .idle := by
  cases stepCollector_walk hi h with
  | @finish curr pending hp => cases pending <;> simp [hp,next]
  | lock hp | next hp | done hp | skip hp | take hp | empty hp | full hp | won hp | lost hp
  | unlock hp | call hp | ret hp | back hp => simp [hp,next]

variable [DecidableEq T]

/-- The step that sets `collector_thread`. -/
theorem Watch.known (hw : Watch ids s) (hi : CollectorThread.Inv s.base) {t : T}
    (hp : s.base.pc t = .regThread c) {b : CollectorThread.Conf T C}
    (hf : CollectorThread.fire s.base (.client t) = some b) (he : ids' c = ids c)
    (hn : ¬Asleep s (Function.update s.base.bound c true)) : Await ids' { s with base := b } c := by
  simp only [CollectorThread.fire,stepClient,hp] at hf
  cases hf
  by_cases hs : s.sema
  · exact .inl hs
  by_cases hd : ∃ d, (s.deleter d).due (Function.update s.base.bound c true)
  · exact .inr (.inr (.inl hd))
  rcases s.run.cases_turns with hr | hr | hr
  · exact .inr (.inl hr)
  · refine .inr (.inr (.inr (.inr (.inl ?_))))
    show s.base.collector.awaits c (ids' c)
    rw [he]
    exact CollectorPc.awaits_of_lt (hw.ahead.newest t c (by rw [hp]; rfl)) (hw.passing.mp hr) hi.alive
  · exact absurd ⟨hr,by simpa using hs,by simpa using hd⟩ hn

theorem Watch.clients (hw : Watch ids s) (hi : CollectorThread.Inv s.base)
    {a : CollectorThread.Label T C} (ha : ofClients a) {b : CollectorThread.Conf T C}
    (hf : CollectorThread.fire s.base a = some b) (hn : Noticed s (.clients a)) :
    ∃ ids', Watch ids' { s with base := b } := by
  have hreg := hn.registers hw.word
  obtain ⟨ids',hah,he⟩ := fire_ahead hi hw.ahead hf hreg
  obtain ⟨hdel,hcol⟩ := fire_clients hi hf (by rintro rfl; cases ha) (by rintro _ _ rfl; cases ha)
    (by rintro _ rfl; cases ha) (by rintro _ rfl; cases ha)
  refine ⟨ids',hah,by rw [fire_idValue hi hf hreg]; exact hreg,by rw [hcol]; exact hw.passing,?_⟩
  intro hact c hk hd
  have hd : s.base.haveDeletes c := by rwa [← hdel]
  rcases known_back hi hf hk with hk | ⟨t,rfl,hp⟩
  · refine (hw.await hact c hk hd).clients (fun c hb => fire_bound hi hf hb) hcol ?_
    exact he c (hk.attached.settled hi)
  · have hfr : (s.base.pc t).fresh = some c := by rw [hp]; rfl
    simp only [Noticed,hp,NoticedAt] at hn
    exact hw.known hi hp hf (he c (hi.settled_fresh hfr)) (hn hact hd)

/-- A pass comes to every client. -/
theorem Watch.begin (hw : Watch ids s) (hi : CollectorThread.Inv s.base)
    {b : CollectorThread.Conf T C} (hf : CollectorThread.fire s.base .pass = some b) :
    ∃ ids', Watch ids' { s with base := b, run := .collect } := by
  have hi' := fire_inv hi hf
  obtain ⟨ids',hah,-⟩ := fire_ahead hi hw.ahead hf hw.word
  cases fire_cases hi hf with
  | pass =>
    refine ⟨ids',hah,hw.word,by simp,fun _ c hk _ => .inr (.inr (.inr (.inr (.inl ?_))))⟩
    have hm := hah.cursor.numbered.mem (hk.attached.facts hi').2 (hk.attached.settled hi')
    exact (hah.cursor.numbered.bounded _ hm).1

theorem Watch.collect (hw : Watch ids s) (hi : CollectorThread.Inv s.base)
    {ok left : Bool} (hl : ok → left = false) {b : CollectorThread.Conf T C}
    (hf : stepCollector s.base ok left = some b) (hr : s.run = .collect) :
    ∃ ids', Watch ids' { s with base := b, run := next s.base.collector } := by
  have hfire : CollectorThread.fire s.base (.collector ok left) = some b := hf
  obtain ⟨ids',hah,he⟩ := fire_ahead hi hw.ahead hfire hw.word
  have m := stepCollector_move hi hf
  refine ⟨ids',hah,by rw [stepCollector_idValue hf]; exact hw.word,next_collect hi hf,?_⟩
  intro hact c hk hd
  have hk : Known s.base c := by simpa only [Known,m.life,m.pc] using hk
  have hid := he c (hk.attached.settled hi)
  by_cases hs : s.sema
  · exact .inl hs
  by_cases hdue : ∃ d, (s.deleter d).due s.base.bound
  · obtain ⟨d,hd⟩ := hdue
    exact .inr (.inr (.inl ⟨d,by rw [m.bound]; exact hd⟩))
  have hatt : s.base.haveDeletes c → s.base.collector.attends c (ids c) := by
    intro hd
    rcases hw.await hact c hk hd with h | h | h | h
    · exact absurd h hs
    · simp [hr,RunPc.turns] at h
    · exact absurd h hdue
    · exact h
  rcases hw.ahead.cursor.attends_next hi hk.attached hl hf hd hatt with h | ⟨curr,hp⟩
  · rw [← hid] at h
    exact .inr (.inr (.inr h))
  · exact .inr (.inl (by simp [hp,next,RunPc.turns]))

variable [DecidableEq D]

/-- A push is followed by a signal if the client is known. -/
theorem Watch.push (hw : Watch ids s) (hi : CollectorThread.Inv s.base) {d : D}
    (hd : s.deleter d = .idle) {b : CollectorThread.Conf T C}
    (hf : CollectorThread.fire s.base (.enqueue c) = some b) :
    ∃ ids', Watch ids' { s with base := b, deleter := Function.update s.deleter d (.load c) } := by
  obtain ⟨ids',hah,he⟩ := fire_ahead hi hw.ahead hf hw.word
  cases fire_cases hi hf with
  | enqueue =>
    refine ⟨ids',hah,hw.word,hw.passing,fun hact c' hk hd' => ?_⟩
    have hk : Known s.base c' := hk
    by_cases hc : c' = c
    · refine .inr (.inr (.inl ⟨d,?_⟩))
      simpa [DeletePc.due] using hc ▸ hk.bound hi
    · have hdel : s.base.haveDeletes c' := by simpa [hc] using hd'
      rcases hw.await hact c' hk hdel with h | h | ⟨d',hdue⟩ | h
      · exact .inl h
      · exact .inr (.inl h)
      · have hne : d' ≠ d := by
          rintro rfl
          simp [hd,DeletePc.due] at hdue
        exact .inr (.inr (.inl ⟨d',by simpa [hne] using hdue⟩))
      · rw [← he c' (hk.attached.settled hi)] at h
        exact .inr (.inr (.inr h))

omit [DecidableEq D] in
/-- A list that another thread has emptied needs nobody to look at it. -/
theorem Watch.emptied (hw : Watch ids s) (hi : CollectorThread.Inv s.base)
    {b : CollectorThread.Conf T C} (hf : CollectorThread.fire s.base (.emptied c) = some b) :
    ∃ ids', Watch ids' { s with base := b } := by
  obtain ⟨ids',hah,he⟩ := fire_ahead hi hw.ahead hf hw.word
  cases fire_cases hi hf with
  | emptied =>
    refine ⟨ids',hah,hw.word,hw.passing,fun hact c' hk hd => ?_⟩
    have hk : Known s.base c' := hk
    have hc : c' ≠ c := by
      rintro rfl
      simp at hd
    have hdel : s.base.haveDeletes c' := by simpa [hc] using hd
    exact (hw.await hact c' hk hdel).clients (fun c hb => hb) rfl (he c' (hk.attached.settled hi))

theorem Watch.move (hw : Watch ids s) (hi : CollectorThread.Inv s.base) (ho : OwnerInv s)
    {a : Label D T C} (hn : Noticed s a) (m : Move s a s') : ∃ ids', Watch ids' s' := by
  cases m with
  | clients ha hc hf => exact hw.clients hi ha hf hn
  | push hd hf => exact hw.push hi hd hf
  | emptied hf => exact hw.emptied hi hf
  | load hd => exact ⟨ids,hw.load hd⟩
  | begin hr ha hf => exact hw.begin hi hf
  | collect hr hl hf => exact hw.collect hi hl hf hr
  | notify | signal => exact ⟨ids,hw.keep rfl Iff.rfl fun _ _ _ => .inl rfl⟩
  | repost hr => exact ⟨ids,hw.keep rfl (by simp [hr]) fun _ _ _ => .inl rfl⟩
  | leave hr | sleep hr | wake hr | clear hr =>
    exact ⟨ids,hw.keep rfl (by simp [hr]) fun _ _ _ => .inr (.inl rfl)⟩
  | conActive hc =>
    refine ⟨ids,hw.keep rfl Iff.rfl fun _ _ _ => .inr (.inl ?_)⟩
    simp [ho.unborn (.inl hc),RunPc.turns]
  | conNew hc =>
    exact ⟨ids,hw.keep rfl (by simp [ho.unborn (.inr hc)]) fun _ _ _ => .inr (.inl rfl)⟩
  | stopActive => exact ⟨ids,hw.keep rfl Iff.rfl fun ha => by cases ha⟩
  | stopSignal => exact ⟨ids,hw.keep rfl Iff.rfl fun _ _ _ => .inl rfl⟩
  | _ => exact ⟨ids,hw.keep rfl Iff.rfl fun ha c h => h ha⟩

theorem reachable_watch (hr : (system D T C).ReachableVia Noticed s) : ∃ ids, Watch ids s := by
  refine hr.invariant (I:=fun s => ∃ ids, Watch ids s) (fun s h => ?_) ?_
  · exact h ▸ ⟨fun _ => 0,watch_start _⟩
  · intro s a s' hs ⟨ids,hw⟩ hn hf
    exact hw.move (reachable_base hs.reachable) (reachable_owner hs.reachable) hn (fire_move hf)

/-- The collector sleeps on pending garbage, and no thread is in `Delete`, `RegisterClient` or
`DeregisterClient`. -/
structure Missed (s : Conf D T C) : Prop where
  run : s.run = .wait
  sema : s.sema = false
  garbage : ∃ c, s.base.state c = .registered ∧ s.base.haveDeletes c
  deleters : ∀ d, s.deleter d = .idle
  clients : ∀ t, s.base.pc t = .idle

omit [DecidableEq D] [DecidableEq T] in
theorem Watch.idle (hw : Watch ids s) (hrun : s.run = .wait) : s.base.collector = .idle := by
  by_contra h
  simpa [hrun] using hw.passing.mpr h

omit [DecidableEq D] [DecidableEq T] in
/-- While everybody waits, the registered clients have nothing on their gc lists. -/
theorem Watch.quiet (hw : Watch ids s) (hi : CollectorThread.Inv s.base) (ha : s.active)
    (hrun : s.run = .wait) (hsema : s.sema = false) (hdel : ∀ d, s.deleter d = .idle)
    (hpc : ∀ t, s.base.pc t = .idle) (hst : s.base.state c = .registered) :
    s.base.haveDeletes c = false := by
  have hl : ∀ t, s.base.life c ≠ .deregistering t := by
    intro t hlife
    have h := hi.lives c
    simp [LifeOk,hlife,hpc] at h
  have hk : Known s.base c := by
    refine (hi.attached hst hl).imp_right fun hin => ?_
    obtain ⟨t,ht⟩ := hin
    simp [hpc] at ht
  by_contra hd
  rcases hw.await ha c hk (by simpa using hd) with h | h | ⟨d,h⟩ | h
  · simp [hsema] at h
  · simp [hrun,RunPc.turns] at h
  · simp [hdel,DeletePc.due] at h
  · rw [hw.idle hrun] at h
    simp [CollectorPc.attends,CollectorPc.pending,CollectorPc.awaits,CollectorPc.Inside] at h

theorem not_missed (hr : (system D T C).ReachableVia Noticed s) (ha : s.active) : ¬Missed s := by
  rintro ⟨hrun,hsema,⟨c,hst,hd⟩,hdel,hpc⟩
  obtain ⟨ids,hw⟩ := reachable_watch hr
  have hnone := hw.quiet (reachable_base hr.reachable) ha hrun hsema hdel hpc hst
  cases hnone.symm.trans hd

/-- The condition is needed: after a registration without it, the thread returns, and nobody is
going to look at the client. -/
theorem asleep_registered (hr : (system D T C).Reachable s) {t : T}
    (hp : s.base.pc t = .regThread c) (hd : s.base.haveDeletes c)
    (hs : Asleep s (Function.update s.base.bound c true))
    (h : fire s (.clients (.client t)) = some s') :
    ∃ u, fire s' (.clients (.client t)) = some u ∧ Asleep u u.base.bound ∧
      u.base.state c = .registered ∧ u.base.haveDeletes c ∧ u.base.pc t = .idle := by
  have hst := (reachable_base hr).threads t
  rw [hp] at hst
  cases fire_move h with
  | @clients a b ha ho hf =>
    simp only [CollectorThread.fire,stepClient,hp] at hf
    cases hf
    simp only [fire,ofClients,ho,CollectorThread.fire,stepClient,Conf.setPc,Conf.setLife,
      Function.update_self,and_self,if_true,Option.map_some,Option.some.injEq,exists_eq_left']
    exact ⟨hs,hst.1,hd,trivial⟩

/-- A whole `RegisterClient`. -/
def registerSteps (c : C) : List (Label Party Party C) :=
  .clients (.register 0 c)::List.replicate 8 (.clients (.client 0))

def runSteps (C : Type) (n : ℕ) : List (Label Party Party C) :=
  List.replicate n (.run true false)

def constructSteps (C : Type) : List (Label Party Party C) := List.replicate 3 .owner

/-- A client with a node on its gc list is registered while the collector waits. -/
def missedSchedule : List (Label Party Party Party) :=
  .delete 0 0::.deleter 0::(constructSteps _++runSteps _ 4++registerSteps 0)

def missedConf : Conf Party Party Party :=
  ((system Party Party Party).exec start missedSchedule).getD start

theorem missed_missedConf : (system Party Party Party).Reachable missedConf ∧
    missedConf.active ∧ Missed missedConf :=
  ⟨.execD missedSchedule (.init rfl),by decide,by decide,by decide,⟨0,by decide⟩,by decide,by decide⟩

/-- Client 0 is registered at construction and gets a node; client 1 is registered with a node
on its list while the collector is in `Collect` of client 0. -/
def noticedSchedule : List (Label Party Party Party) :=
  .delete 0 1::.deleter 0::(constructSteps _++registerSteps 0)++
    .delete 0 0::.deleter 0::.deleter 0::(runSteps _ 8++registerSteps 1++runSteps _ 31)

def noticedConf : Conf Party Party Party :=
  ((system Party Party Party).execVia Noticed start noticedSchedule).getD start

example : (noticedConf.run,noticedConf.sema,noticedConf.base.haveDeletes 0,
    noticedConf.base.haveDeletes 1) = (.wait,false,false,false) := by decide

theorem not_missed_noticedConf : noticedConf.active ∧ ¬Missed noticedConf :=
  ⟨by decide,not_missed (.execViaD noticedSchedule (.init rfl)) (by decide)⟩

end CollectorRun
end Benedias
