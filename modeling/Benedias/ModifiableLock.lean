import Benedias.RwExclusion

/-! `fu_read_modifiable_lock` over `futex_rw_control`: the flag `write_modified` beside the
program points of the control, in every thread an object of its own that is reused from round
to round. -/
namespace Benedias
namespace ModifiableLock

open Interleaving FutexMachine Gate RwControl

/-- A thread with its lock object; `viaObject` tells the object's sections from those of a
plain read or write lock. -/
structure Holder where
  pc : Thread
  viaObject : Bool
  writeModified : Bool
  deriving DecidableEq

/-! The calls on the object. -/

/-- A new object in place of the old one. -/
def Holder.makeModifiableLock (h : Holder) : Holder := { h with writeModified := false }

def Holder.lock (h : Holder) : Holder := { h with pc := readLock, viaObject := true }

def Holder.unlock (h : Holder) : Holder :=
  { h with pc := if h.writeModified then writeUnlock else readUnlock }

/-- Nothing is called if the flag is set. -/
def Holder.tryWriteModify (h : Holder) : Holder :=
  if h.writeModified then h else { h with pc := RwControl.tryWriteModify }

def Holder.writeModify (h : Holder) : Holder := { h with pc := RwControl.writeModify }

def Holder.isWriteLock (h : Holder) : Bool := h.writeModified

def Holder.calls (h : Holder) : List Holder := [h.unlock,h.tryWriteModify,h.writeModify,h]

/-- The flag after a step of the control from `p` to `q`: the upgrade calls assign it at their
return. -/
def returned : Thread → Thread → Bool → Bool
  | .tryEnter, .reading, _ => false
  | _, .writing _, _ => true
  | _, _, writeModified => writeModified

def Holder.goOn (h : Holder) (q : Thread) : Holder :=
  ⟨q,h.viaObject,if h.viaObject then returned h.pc q h.writeModified else h.writeModified⟩

def Holder.plain (h : Holder) (q : Thread) : Holder := ⟨q,false,h.writeModified⟩

/-- The one step of a thread, or the calls it may make next. -/
def next {n : ℕ} (w : IntWord n) (h : Holder) (m : Mem) : List (Effect Mem Word Holder) :=
  match h.pc, h.viaObject with
  | .outside, _ => .go m h.makeModifiableLock :: .go m h.lock ::
      (RwControl.next w .outside m).map (Effect.map id id h.plain)
  | .reading, true | .writing _, true => h.calls.map (.go m)
  | p, _ => (RwControl.next w p m).map (Effect.map id id h.goOn)

def Holder.start : Holder := ⟨.outside,false,false⟩

variable {T : Type} [DecidableEq T] [Fintype T]

abbrev LockConf (T : Type) := Conf T Mem Word Holder

/-- Any threads of `T` on one `futex_rw_control`, each with a modifiable lock. -/
def modifiable (w : IntWord (Fintype.card T)) : System (LockConf T) (Label T) :=
  machine (next w) ⟨0,0⟩ .start

def inWriteMode : Thread → Bool
  | .writing _ => true
  | _ => false

/-- In a call of `unlock`. -/
def inUnlock : Thread → Bool
  | .drop .readUnlock | .wakeWriter .readUnlock | .clearReaders | .leave .writeUnlock _ => true
  | _ => false

/-- Between two calls, or in one of `try_write_modify` or `write_modify`. -/
def inUpgrade : Thread → Bool
  | .reading | .writing _ | .tryEnter | .dropOwn | .announce _ | .drainWait _ _ | .drainLoad _
  | .drop .writeModify | .wakeWriter .writeModify | .enter .writeModify _ => true
  | _ => false

/-- The object knows its mode while it is held, and its calls do what the mode asks for. -/
structure Tracks (w : IntWord (Fintype.card T)) (c : LockConf T) : Prop where
  mode : ∀ t, (c.pc t).viaObject → (c.pc t).pc = .reading ∨ inWriteMode (c.pc t).pc →
    ((c.pc t).isWriteLock ↔ inWriteMode (c.pc t).pc)
  nop : ∀ t choice woken c', (c.pc t).viaObject → (c.pc t).writeModified →
    inUpgrade (c.pc t).pc → (modifiable w).fire c (.run t choice woken) = some c' →
    c'.mem = c.mem
  release : ∀ t, (c.pc t).viaObject →
    ((c.pc t).pc = .reading → (c.pc t).unlock.pc = readUnlock) ∧
      (inWriteMode (c.pc t).pc → (c.pc t).unlock.pc = writeUnlock)
  /-- A step of `unlock` changes the count by the thread's own share, and the gate only if no
  other thread owns it. -/
  own : ∀ t choice woken c', (c.pc t).viaObject → inUnlock (c.pc t).pc →
    (modifiable w).fire c (.run t choice woken) = some c' →
    c'.mem.nreaders - c.mem.nreaders = (c'.pc t).pc.weight - (c.pc t).pc.weight ∧
      (∀ u, u ≠ t → c'.pc u = c.pc u) ∧
      ((∃ u, u ≠ t ∧ (c.pc u).pc.phase.owns) → c'.mem.gate = c.mem.gate)
  count : c.mem.nreaders = ((Finset.univ.filter fun t => (c.pc t).pc.counted).card : ℤ) -
    (if ∃ t, (c.pc t).pc.announced then 1 else 0)
  gate : (c.mem.gate ≠ 0 ↔ ∃ t, (c.pc t).pc.phase.owns) ∧
    ∀ t u, (c.pc t).pc.phase.owns → (c.pc u).pc.phase.owns → t = u

/-- An object that is not held says so. -/
def Idle (c : LockConf T) : Prop :=
  ∀ t, (c.pc t).viaObject = false ∨ (c.pc t).pc = .outside → (c.pc t).isWriteLock = false

/-- No `write_modify` by an object that holds the write lock, and no `lock` by one whose flag
is still set. -/
def freshRounds (h : Holder) (e : Effect Mem Word Holder) : Bool :=
  ! (h.viaObject && inWriteMode h.pc && decide (e.pc.pc = RwControl.writeModify)) &&
    ! (decide (h.pc = .outside) && h.writeModified && e.pc.viaObject && decide (e.pc.pc = readLock))

/-- No `write_modify` and no `unlock` by an object that holds the write lock. -/
def singleRound (h : Holder) (e : Effect Mem Word Holder) : Bool :=
  ! (h.viaObject && inWriteMode h.pc &&
    (decide (e.pc.pc = RwControl.writeModify) || decide (e.pc.pc = writeUnlock)))

/-! The flag and the program point. -/

/-- The program points at which an object in use has its flag set. -/
def upgraded : Thread → Bool
  | .writing _ | .clearReaders | .leave .writeUnlock _ => true
  | _ => false

def Coherent (h : Holder) : Prop :=
  h.viaObject → h.pc ≠ .outside → h.writeModified = upgraded h.pc

/-- A step inside a call of the control. -/
theorem upgraded_next {n : ℕ} {w : IntWord n} {p : Thread} {m : Mem} {e : Effect Mem Word Thread}
    (hp : p ≠ .outside ∧ p ≠ .reading ∧ inWriteMode p = false) (he : e ∈ RwControl.next w p m) :
    e.pc = .outside ∨ upgraded e.pc = returned p e.pc (upgraded p) := by
  rcases p with _ | _ | _ | ⟨k,pc⟩ | _ | ⟨k,pc⟩ | k | k | _ | _ | k | ⟨k,v⟩ | k | _ | _
  case enter =>
    simp only [RwControl.next,List.mem_singleton] at he
    subst he
    right
    cases k <;> rcases pc with _ | e | _ | _ <;> simp only [enterGate,futexWait] <;>
      (repeat' split) <;> rfl
  case leave =>
    simp only [RwControl.next,List.mem_singleton] at he
    subst he
    cases k <;> cases pc <;> simp only [leaveGate] <;> (repeat' split) <;>
      first | exact .inl rfl | exact .inr rfl
  case drop =>
    cases k <;> simp only [RwControl.next,List.mem_singleton,subFetch] at he <;> subst he <;>
      simp only [Effect.pc] <;> (repeat' split) <;> first | exact .inl rfl | exact .inr rfl
  case wakeWriter =>
    simp only [RwControl.next,List.mem_singleton] at he
    subst he
    cases k <;> first | exact .inl rfl | exact .inr rfl
  case outside => exact absurd rfl hp.1
  case reading => exact absurd rfl hp.2.1
  case writing => simp [inWriteMode] at hp
  case aborted => simp [RwControl.next] at he
  all_goals
    simp only [RwControl.next,tryEnterGate,subFetch,futexWait,List.mem_singleton] at he
    subst he
    right
    (repeat' split) <;> rfl

/-- What a thread can do: renew or lock its object, use the control directly, call its
object, or go on inside a call. -/
inductive Does {n : ℕ} (w : IntWord n) (h : Holder) (m : Mem) : Effect Mem Word Holder → Prop
  | make (hp : h.pc = .outside) : Does w h m (.go m h.makeModifiableLock)
  | lock (hp : h.pc = .outside) : Does w h m (.go m h.lock)
  | plain {e : Effect Mem Word Thread} (hp : h.pc = .outside)
      (he : e ∈ RwControl.next w .outside m) : Does w h m (e.map id id h.plain)
  | call {q : Holder} (hv : h.viaObject) (hp : h.pc = .reading ∨ inWriteMode h.pc)
      (hq : q ∈ h.calls) : Does w h m (.go m q)
  | control {e : Effect Mem Word Thread} (hp : h.pc ≠ .outside)
      (hc : h.viaObject → h.pc ≠ .reading ∧ inWriteMode h.pc = false)
      (he : e ∈ RwControl.next w h.pc m) : Does w h m (e.map id id h.goOn)

theorem next_does {n : ℕ} {w : IntWord n} {h : Holder} {m : Mem} {e : Effect Mem Word Holder}
    (he : e ∈ next w h m) : Does w h m e := by
  unfold next at he
  split at he
  case h_1 hp =>
    rcases List.mem_cons.mp he with rfl | he
    · exact .make hp
    rcases List.mem_cons.mp he with rfl | he
    · exact .lock hp
    obtain ⟨e₀,he₀,rfl⟩ := List.mem_map.mp he
    exact .plain hp he₀
  case h_2 hp hv =>
    obtain ⟨q,hq,rfl⟩ := List.mem_map.mp he
    exact .call hv (.inl hp) hq
  case h_3 k hp hv =>
    obtain ⟨q,hq,rfl⟩ := List.mem_map.mp he
    exact .call hv (.inr (by rw [hp]; rfl)) hq
  case h_4 hout hread hwrite =>
    obtain ⟨e₀,he₀,rfl⟩ := List.mem_map.mp he
    refine .control hout (fun hv => ⟨fun hr => hread hr hv,?_⟩) he₀
    cases hp : h.pc with
    | writing k => exact absurd hv (hwrite k hp)
    | _ => rfl

theorem Coherent.flag {h : Holder} (hc : Coherent h) (hv : h.viaObject)
    (hp : h.pc = .reading ∨ inWriteMode h.pc) : h.writeModified = inWriteMode h.pc := by
  rcases hp with hp | hp
  · rw [hc hv (by simp [hp]),hp]; rfl
  · rw [hc hv (by rintro hn; simp [hn,inWriteMode] at hp)]
    cases hpc : h.pc <;> simp_all [inWriteMode,upgraded]

theorem coherent_next {n : ℕ} {w : IntWord n} {h : Holder} {m : Mem} {e : Effect Mem Word Holder}
    (hc : Coherent h) (hok : freshRounds h e) (he : e ∈ next w h m) : Coherent e.pc := by
  cases next_does he with
  | make hp => exact fun _ hn => absurd hp hn
  | lock hp =>
    intro _ _
    have hflag : h.writeModified = false := by
      simpa [freshRounds,hp,Holder.lock,Effect.pc,inWriteMode,readLock] using hok
    exact hflag
  | @plain e₀ hp h₀ =>
    intro hv
    simp [Holder.plain] at hv
  | @call q hv hp hq =>
    have hflag := hc.flag hv hp
    simp only [Holder.calls,List.mem_cons,List.not_mem_nil,or_false] at hq
    rcases hp with hp | hp
    · rw [hp] at hflag
      rcases hq with rfl | rfl | rfl | rfl <;> intro _ _ <;>
        simp [Effect.pc,Holder.unlock,Holder.tryWriteModify,Holder.writeModify,hflag,hp,inWriteMode,
          upgraded,readUnlock,RwControl.tryWriteModify,RwControl.writeModify]
    · have hup : upgraded h.pc = true := by cases hpc : h.pc <;> simp_all [inWriteMode,upgraded]
      rw [hp] at hflag
      rcases hq with rfl | rfl | rfl | rfl <;> intro _ _
      · simp [Effect.pc,Holder.unlock,hflag,upgraded,writeUnlock]
      · simp [Effect.pc,Holder.tryWriteModify,hflag,hup]
      · simp [freshRounds,hv,hp,Effect.pc,Holder.writeModify] at hok
      · simp [Effect.pc,hflag,hup]
  | @control e₀ hp hcall h₀ =>
    intro hv hn
    rw [Effect.map_pc] at hv hn ⊢
    have hvia : h.viaObject = true := hv
    obtain ⟨hread,hwrite⟩ := hcall hvia
    have hup := (upgraded_next ⟨hp,hread,hwrite⟩ h₀).resolve_left hn
    have hflag := hc hvia hp
    simp only [Holder.goOn,hvia,if_true,hflag,hup]

/-- How an effect of a lock user looks to the control. -/
theorem effectMaps {n : ℕ} {w : IntWord n} {h : Holder} {m : Mem} {e : Effect Mem Word Holder}
    (hc : Coherent h) (hok : freshRounds h e) (he : e ∈ next w h m) :
    EffectMaps (RwControl.next w) id some Holder.pc m h e := by
  have mapped {f : Thread → Holder} {e₀ : Effect Mem Word Thread}
      (hf : ∀ q, (f q).pc = q) (he : e₀ ∈ RwControl.next w h.pc m) :
      EffectMaps (RwControl.next w) id some Holder.pc m h (e₀.map id id f) := by
    cases e₀ <;> simp [EffectMaps,Effect.map,hf,he]
  cases next_does he with
  | make hp => exact .inl ⟨rfl,rfl⟩
  | lock hp => exact .inr (by simp [hp,RwControl.next,Holder.lock])
  | plain hp h₀ => exact mapped (fun _ => rfl) (by rw [hp]; exact h₀)
  | @call q hv hp hq =>
    have hflag := hc.flag hv hp
    simp only [Holder.calls,List.mem_cons,List.not_mem_nil,or_false] at hq
    rcases hp with hp | hp
    · rw [hp] at hflag
      rcases hq with rfl | rfl | rfl | rfl
      · exact .inr (by simp [Holder.unlock,hflag,hp,RwControl.next,inWriteMode])
      · exact .inr (by simp [Holder.tryWriteModify,hflag,hp,RwControl.next,inWriteMode])
      · exact .inr (by simp [Holder.writeModify,hp,RwControl.next])
      · exact .inl ⟨rfl,rfl⟩
    · have hwriting : ∃ k, h.pc = .writing k := by cases hpc : h.pc <;> simp_all [inWriteMode]
      obtain ⟨k,hk⟩ := hwriting
      rw [hp] at hflag
      rcases hq with rfl | rfl | rfl | rfl
      · exact .inr (by simp [Holder.unlock,hflag,hk,RwControl.next])
      · exact .inl ⟨rfl,by simp [Holder.tryWriteModify,hflag]⟩
      · simp [freshRounds,hv,hp,Effect.pc,Holder.writeModify] at hok
      · exact .inl ⟨rfl,rfl⟩
  | control hp hcall h₀ => exact mapped (fun _ => rfl) h₀

/-! Runs in which no object goes through a second round or a second upgrade. -/

/-- In the part of `unlock` that gives up the write lock. -/
def releasing : Thread → Bool
  | .clearReaders | .leave .writeUnlock _ => true
  | _ => false

/-- The flag is down outside the object's sections, and no write section ends. -/
structure Single (h : Holder) : Prop where
  coherent : Coherent h
  idle : h.viaObject = false ∨ h.pc = .outside → h.writeModified = false
  kept : h.viaObject → releasing h.pc = false

theorem Single.fresh {h : Holder} (hs : Single h) {e : Effect Mem Word Holder}
    (hok : singleRound h e) : freshRounds h e := by
  simp only [singleRound,freshRounds,Bool.not_eq_eq_eq_not,Bool.not_true,Bool.and_eq_false_iff,
    Bool.or_eq_false_iff,decide_eq_false_iff_not,Bool.and_eq_true] at hok ⊢
  refine ⟨hok.imp_right And.left,?_⟩
  by_cases hp : h.pc = .outside
  · exact .inl (.inl (.inr (hs.idle (.inr hp))))
  · exact .inl (.inl (.inl hp))

theorem Single.next {n : ℕ} {w : IntWord n} {h : Holder} {m : Mem} {e : Effect Mem Word Holder}
    (hs : Single h)
    (hok : singleRound h e) (he : e ∈ next w h m) : Single e.pc := by
  have hco := coherent_next hs.coherent (hs.fresh hok) he
  cases next_does he with
  | make hp => exact ⟨hco,fun _ => rfl,fun _ => by simp [Effect.pc,Holder.makeModifiableLock,hp,releasing]⟩
  | lock hp =>
    refine ⟨hco,fun h => ?_,fun _ => rfl⟩
    simp [Effect.pc,Holder.lock,readLock] at h
  | @plain e₀ hp h₀ =>
    refine ⟨hco,fun _ => ?_,fun hv => ?_⟩
    · rw [Effect.map_pc]
      exact hs.idle (.inr hp)
    · simp [Holder.plain] at hv
  | @call q hv hp hq =>
    have hflag := hs.coherent.flag hv hp
    have hin : h.pc ≠ .outside ∧ releasing h.pc = false := by
      rcases hp with hp | hp
      · simp [hp,releasing]
      · cases hpc : h.pc <;> simp_all [inWriteMode,releasing]
    simp only [Holder.calls,List.mem_cons,List.not_mem_nil,or_false] at hq
    rcases hq with rfl | rfl | rfl | rfl
    · rcases hp with hp | hp
      · refine ⟨hco,fun h => ?_,fun _ => ?_⟩ <;>
          simp_all [Effect.pc,Holder.unlock,inWriteMode,readUnlock,releasing]
      · rw [hp] at hflag
        simp [singleRound,hv,hp,Effect.pc,Holder.unlock,hflag] at hok
    · refine ⟨hco,fun h => ?_,fun _ => ?_⟩ <;>
        simp only [Effect.pc,Holder.tryWriteModify] at * <;> split <;>
        simp_all [RwControl.tryWriteModify,releasing]
    · refine ⟨hco,fun h => ?_,fun _ => ?_⟩ <;>
        simp_all [Effect.pc,Holder.writeModify,RwControl.writeModify,releasing]
    · exact hs
  | @control e₀ hp hcall h₀ =>
    rw [Effect.map_pc] at hco ⊢
    cases hv : h.viaObject with
    | false =>
      refine ⟨hco,fun _ => ?_,fun hv' => ?_⟩
      · simpa [Holder.goOn,hv] using hs.idle (.inl hv)
      · simp [Holder.goOn,hv] at hv'
    | true =>
      obtain ⟨hread,hwrite⟩ := hcall hv
      have hdown : upgraded h.pc = false := by
        have hk := hs.kept hv
        cases hpc : h.pc with
        | leave k pc => cases k <;> simp_all [releasing,upgraded]
        | _ => simp_all [releasing,upgraded,inWriteMode]
      have hflag : h.writeModified = false := (hs.coherent hv hp).trans hdown
      have hup := upgraded_next ⟨hp,hread,hwrite⟩ h₀
      rw [hdown] at hup
      refine ⟨hco,fun hi => ?_,fun _ => ?_⟩
      · have hout : e₀.pc = .outside := by simpa [Holder.goOn,hv] using hi
        simp [Holder.goOn,hv,hout,hflag,returned]
      · simp only [Holder.goOn]
        generalize e₀.pc = q at hup
        rcases hup with rfl | hup
        · rfl
        · cases q with
          | leave k pc => cases k <;> simp_all [releasing,upgraded,returned]
          | clearReaders => simp [upgraded,returned] at hup
          | _ => rfl

section Rounds

variable {w : IntWord (Fintype.card T)} {c : LockConf T}

/-- The lock users seen as users of the control. -/
def control (c : LockConf T) : RwConf T := project id some Holder.pc c

def freshMachine (w : IntWord (Fintype.card T)) : System (LockConf T) (Label T) :=
  machine (restrict freshRounds (next w)) ⟨0,0⟩ .start

theorem fresh_coherent (hr : (freshMachine w).Reachable c) (t : T) : Coherent (c.pc t) := by
  refine machine_local hr (I:=Coherent) (fun _ hn => absurd rfl hn) (fun p m e he hc => ?_) t
  obtain ⟨he,hok⟩ := List.mem_filter.mp he
  exact coherent_next hc hok he

/-- Where rounds start with the flag down and upgrades are not repeated, the objects use the
control as its threads do. -/
def freshView (w : IntWord (Fintype.card T)) : Simulation (freshMachine w) (rwSystem w) where
  abs := control
  init := by rintro c rfl; rfl
  step c b c' hr hf := by
    have hmap : ∀ t e, e ∈ restrict freshRounds (next w) (c.pc t) c.mem →
        EffectMaps (RwControl.next w) id some Holder.pc c.mem (c.pc t) e := by
      intro t e he
      obtain ⟨he,hok⟩ := List.mem_filter.mp he
      exact effectMaps (fresh_coherent hr t) hok he
    exact (project_step id some Holder.pc (by simp) hmap (fire_step hf)).imp_right step_fire

theorem control_reachable (hr : (modifiable w).ReachableVia (Meets freshRounds (next w)) c) :
    (rwSystem w).Reachable (control c) :=
  (freshView w).reachable (restrict_reachable hr)

theorem coherent (hr : (modifiable w).ReachableVia (Meets freshRounds (next w)) c) (t : T) :
    Coherent (c.pc t) :=
  fresh_coherent (w:=w) (restrict_reachable hr) t

theorem freshRounds_of_unlock {h : Holder} (hu : inUnlock h.pc) (e : Effect Mem Word Holder) :
    freshRounds h e := by
  have hw : inWriteMode h.pc = false := by cases hpc : h.pc <;> simp_all [inUnlock,inWriteMode]
  have ho : h.pc ≠ .outside := by rintro hn; simp [hn,inUnlock] at hu
  simp [freshRounds,hw,ho]

/-- A step of `unlock` writes the gate only where its thread owns it. -/
theorem unlock_gate {n : ℕ} {w : IntWord n} {h : Holder} {m : Mem} {e : Effect Mem Word Holder}
    (hu : inUnlock h.pc) (he : e ∈ next w h m) :
    (e.mem m).gate = m.gate ∨ h.pc.phase.owns := by
  cases next_does he with
  | make hp => exact .inl rfl
  | lock hp => exact .inl rfl
  | plain hp h₀ => rw [hp] at hu; cases hu
  | call hv hp hq => exact .inl rfl
  | @control e₀ hp hcall h₀ =>
    rw [Effect.map_mem]
    generalize h.pc = p at *
    rcases p with _ | _ | _ | _ | _ | ⟨_ | _,_ | _ | _⟩ | ⟨_ | _⟩ | ⟨_ | _⟩ | _ | _ | _ | _ | _ | _ | _ <;>
      simp only [inUnlock,Bool.false_eq_true] at hu <;>
      simp only [RwControl.next,subFetch,leaveGate,List.mem_singleton] at h₀ <;> subst h₀ <;>
      first | exact .inl rfl | exact .inr rfl

theorem tracks_rounds (hr : (modifiable w).ReachableVia (Meets freshRounds (next w)) c) :
    Tracks w c := by
  have hv := control_reachable hr
  have hco := coherent hr
  have hg := gate_inv hv
  refine ⟨fun t hvia hp => ?_,fun t choice woken c' hvia hflag hup hf => ?_,fun t hvia => ?_,
    fun t choice woken c' hvia hu hf => ?_,(reader_count w hv).1,⟨?_,?_⟩,hg.unique⟩
  · rw [Holder.isWriteLock,(hco t).flag hvia hp]
  · obtain ⟨e,he,hm,-⟩ := fire_run hf
    have hpt : upgraded (c.pc t).pc := by
      rw [← hco t hvia (by rintro hn; simp [hn,inUpgrade] at hup)]
      exact hflag
    have hw : inWriteMode (c.pc t).pc := by
      generalize (c.pc t).pc = p at hup hpt
      cases p <;> simp_all [inUpgrade,upgraded,inWriteMode]
    cases next_does (List.mem_of_getElem? he) with
    | make hp => exact hm
    | lock hp => exact hm
    | plain hp h₀ => rw [hp] at hw; cases hw
    | call hv hp hq => exact hm
    | control hp hcall h₀ => rw [(hcall hvia).2] at hw; cases hw
  · refine ⟨fun hp => ?_,fun hp => ?_⟩
    · simp [Holder.unlock,(hco t).flag hvia (.inl hp),hp,inWriteMode]
    · simp [Holder.unlock,(hco t).flag hvia (.inr hp),hp]
  · have hmeets : Meets freshRounds (next w) c (.run t choice woken) := by
      simp only [Meets]
      cases he : (next w (c.pc t) c.mem)[choice]? with
      | none => rfl
      | some e => simpa using freshRounds_of_unlock hu e
    have hv' := control_reachable (hr.step hmeets hf)
    obtain ⟨e,he,hm,hp⟩ := fire_run hf
    have hother : ∀ u, u ≠ t → c'.pc u = c.pc u := fun u hut => by simp [hp,hut]
    refine ⟨?_,hother,fun ⟨u,hut,hown⟩ => ?_⟩
    · have hcount : c.mem.nreaders = total Thread.weight fun u => (c.pc u).pc :=
        (reachable_inv hv).count
      have hcount' : c'.mem.nreaders = total Thread.weight fun u => (c'.pc u).pc :=
        (reachable_inv hv').count
      have hpc : (fun u => (c'.pc u).pc) =
          Function.update (fun u => (c.pc u).pc) t (c'.pc t).pc := by
        rw [hp,Function.update_self]
        exact project_pc_update Holder.pc c t e.pc
      rw [hcount,hcount',hpc,total_update]
      omega
    · rw [hm]
      refine (unlock_gate hu (List.mem_of_getElem? he)).resolve_right fun ht => ?_
      exact hut (hg.unique u t hown ht)
  · exact hg.held
  · rintro ⟨t,ht⟩ h0
    have hfree := hg.free h0 t
    change (c.pc t).pc.phase.owns = false at hfree
    rw [hfree] at ht
    cases ht

theorem single (hr : (modifiable w).ReachableVia (Meets singleRound (ModifiableLock.next w)) c)
    (t : T) : Single (c.pc t) := by
  have hstart : Single Holder.start := ⟨fun _ hn => absurd rfl hn,fun _ => rfl,fun h => by cases h⟩
  refine machine_local (I:=Single) (restrict_reachable hr) hstart (fun p m e he hs => ?_) t
  obtain ⟨he,hok⟩ := List.mem_filter.mp he
  exact hs.next hok he

theorem fresh_of_single
    (hr : (modifiable w).ReachableVia (Meets singleRound (ModifiableLock.next w)) c) :
    (modifiable w).ReachableVia (Meets freshRounds (ModifiableLock.next w)) c := by
  refine hr.invariant (fun c hc => .init hc) fun c b c' hr hi hb hf => .step hi ?_ hf
  cases b with
  | run t choice woken =>
    simp only [Meets] at hb ⊢
    cases he : (ModifiableLock.next w (c.pc t) c.mem)[choice]? with
    | none => rfl
    | some e => simpa using (single hr t).fresh (by simpa [he] using hb)
  | spurious t => trivial

/-- As long as no object that holds the write lock upgrades or unlocks, every object tracks
its mode. -/
theorem tracks_mode
    (hr : (modifiable w).ReachableVia (Meets singleRound (ModifiableLock.next w)) c) :
    Tracks w c ∧ Idle c :=
  ⟨tracks_rounds (fresh_of_single hr),fun t => (single hr t).idle⟩

end Rounds

/-! Thread 0 locks, upgrades and unlocks its object, then locks it again beside thread 1. -/

def upgradeSchedule : List (Label Party) :=
  [.run 0 1 none,.run 0 0 none,.run 0 0 none,.run 0 0 none,.run 0 1 none,.run 0 0 none,
    .run 0 0 none,.run 0 0 none]

def upgradeConf : LockConf Party :=
  ((modifiable partyWord).execVia (Meets singleRound (next partyWord)) (start ⟨0,0⟩ .start)
    upgradeSchedule).getD (start ⟨0,0⟩ .start)

theorem upgradeConf_reachable :
    (modifiable partyWord).ReachableVia (Meets singleRound (next partyWord)) upgradeConf :=
  .execViaD upgradeSchedule (.init rfl)

theorem tracks_mode_upgradeConf : (upgradeConf.pc 0).pc = .writing .tryWriteModify ∧
    (upgradeConf.pc 0).isWriteLock = true ∧ Tracks partyWord upgradeConf ∧ Idle upgradeConf :=
  ⟨by decide,by decide,tracks_mode upgradeConf_reachable⟩

def reuseSchedule : List (Label Party) :=
  [.run 0 0 none,.run 0 0 none,.run 0 0 none,.run 0 1 none,.run 0 0 none,.run 0 0 none,
    .run 0 0 none,.run 1 1 none,.run 1 0 none,.run 1 0 none,.run 1 0 none,.run 0 0 none,
    .run 0 0 none]

def reuseConf : LockConf Party :=
  ((modifiable partyWord).exec upgradeConf reuseSchedule).getD upgradeConf

/-- The second `unlock` stores 0 over the count of a reader. -/
theorem not_tracks_mode : ∃ c, (modifiable partyWord).Reachable c ∧ (c.pc 1).pc = .reading ∧
    c.mem.nreaders = 0 ∧ ¬ Tracks partyWord c := by
  refine ⟨reuseConf,upgradeConf_reachable.reachable.execD reuseSchedule,by decide,by decide,?_⟩
  intro h
  exact absurd h.count (by decide)

end ModifiableLock
end Benedias
