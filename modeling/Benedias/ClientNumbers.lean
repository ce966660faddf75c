import Benedias.CollectorInvariant
import Mathlib.Data.List.InsertIdx

/-! The numbers that `RegisterClient` gives to the clients: `clientsID` has the numbers of the
members of `clients`, in ascending order, and no client gets a second one. -/
namespace Benedias
namespace CollectorThread

open Interleaving

variable {T C : Type}

/-- The thread has changed `clients` and has yet to change `clientsID`. -/
def ClientPc.updating : ClientPc C → Bool
  | .regId _ | .derEraseId _ _ => true
  | _ => false

/-- How the two vectors go together when `ids` are the numbers of the clients. -/
def ClientPc.Listed (ids : C → ℕ) (clients : List C) (clientsID : List ℕ) : ClientPc C → Prop
  | .regId c => ∃ l, clients = l++[c] ∧ clientsID = l.map ids
  | .derEraseId _ ix => clientsID.eraseIdx ix = clients.map ids
  | _ => clientsID = clients.map ids

structure Numbered (ids : C → ℕ) (s : Conf T C) : Prop where
  listed : ∀ t, (s.pc t).updating → (s.pc t).Listed ids s.clients s.clientsID
  rest : (∀ t, (s.pc t).updating = false) → s.clientsID = s.clients.map ids
  sorted : s.clientsID.Pairwise (· < ·)
  bounded : ∀ id ∈ s.clientsID, 0 < id ∧ id ≤ s.idValue

/-- The client that the thread registers, until it has a number. -/
def ClientPc.unnumbered : ClientPc C → Option C
  | .regLoad c | .regCheck c | .regLock c | .regClient c | .regId c => some c
  | _ => none

/-- The client has its number. -/
structure Settled (s : Conf T C) (c : C) : Prop where
  born : s.life c ≠ .unborn
  numbered : ∀ t, (s.pc t).unnumbered ≠ some c

/-- The registrations that the next step of a thread completes in `clientsID`. -/
def ClientPc.numbers : ClientPc C → ℕ
  | .regId _ => 1
  | _ => 0

def registers (s : Conf T C) : Label T C → ℕ
  | .client t => (s.pc t).numbers
  | _ => 0

theorem ClientPc.updating_critical {p : ClientPc C} (h : p.updating) : p.critical := by
  cases p <;> first | rfl | cases h

theorem numbered_start (ids : C → ℕ) : Numbered ids (start : Conf T C) := by
  constructor <;> simp [start,ClientPc.updating]

section Updating

variable {ids : C → ℕ} {s s' : Conf T C} {t : T}

/-- Inside of its critical section a thread finds nobody else updating. -/
theorem Inv.updating_ne (hi : Inv s) (hc : (s.pc t).critical) {t' : T} (ht : t' ≠ t) :
    (s.pc t').updating = false := by
  by_contra h
  exact ht (hi.critical_unique (ClientPc.updating_critical (by simpa using h)) hc)

theorem Numbered.rest_of_critical (hn : Numbered ids s) (hi : Inv s) (hc : (s.pc t).critical)
    (hq : (s.pc t).updating = false) : s.clientsID = s.clients.map ids := by
  refine hn.rest fun t' => ?_
  by_cases ht : t' = t
  · rw [ht,hq]
  · exact hi.updating_ne hc ht

/-- A step that leaves the threads and the vectors alone. -/
theorem Numbered.same (hn : Numbered ids s) (hpc : s'.pc = s.pc) (hc : s'.clients = s.clients)
    (hd : s'.clientsID = s.clientsID) (hv : s'.idValue = s.idValue) : Numbered ids s' where
  listed t h := by
    rw [hpc] at h ⊢
    rw [hc,hd]
    exact hn.listed t h
  rest h := by
    rw [hpc] at h
    rw [hc,hd]
    exact hn.rest h
  sorted := hd ▸ hn.sorted
  bounded := by
    rw [hd,hv]
    exact hn.bounded


theorem stepCollector_idValue [DecidableEq C] {ok left : Bool} (h : stepCollector s ok left = some s') :
    s'.idValue = s.idValue := by
  unfold stepCollector at h
  cases hp : s.collector <;> simp only [hp] at h
  case idle | failed => cases h
  case lock => split at h <;> cases h; rfl
  case ident | deletes => split at h <;> cases h <;> rfl
  case cas =>
    split at h
    · cases h
      rfl
    · split at h
      · cases h
        rfl
      · split at h <;> cases h <;> rfl
  case release => split at h <;> cases h <;> rfl
  all_goals
    cases h
    rfl

end Updating

section Step

variable [DecidableEq T]

/-- What a step of a thread does to the two vectors. -/
inductive ListMove (s s' : Conf T C) (t : T) : Prop
  | quiet (p : ClientPc C) (hpc : s'.pc = Function.update s.pc t p)
      (hq : (s.pc t).updating = false ∧ p.updating = false) (hc : s'.clients = s.clients)
      (hd : s'.clientsID = s.clientsID) (hv : s'.idValue = s.idValue)
      (hu : p.unnumbered = none ∨ p.unnumbered = (s.pc t).unnumbered)
  | client (c : C) (hp : s.pc t = .regClient c) (hpc : s'.pc = Function.update s.pc t (.regId c))
      (hc : s'.clients = s.clients++[c]) (hd : s'.clientsID = s.clientsID)
      (hv : s'.idValue = s.idValue)
  | ident (c : C) (hp : s.pc t = .regId c) (hpc : s'.pc = Function.update s.pc t (.regState c))
      (hc : s'.clients = s.clients) (hd : s'.clientsID = s.clientsID++[s'.idValue])
      (hv : s'.idValue = (s.idValue+1) % 2^32)
  | erase (c : C) (ix : ℕ) (hp : s.pc t = .derErase c ix)
      (hpc : s'.pc = Function.update s.pc t (.derEraseId c ix))
      (hc : s'.clients = s.clients.eraseIdx ix) (hd : s'.clientsID = s.clientsID)
      (hv : s'.idValue = s.idValue)
  | eraseId (c : C) (ix : ℕ) (hp : s.pc t = .derEraseId c ix)
      (hpc : s'.pc = Function.update s.pc t (.derState c)) (hc : s'.clients = s.clients)
      (hd : s'.clientsID = s.clientsID.eraseIdx ix) (hv : s'.idValue = s.idValue)

theorem Numbered.quiet {ids : C → ℕ} {s s' : Conf T C} {t : T} {p : ClientPc C}
    (hn : Numbered ids s) (hpc : s'.pc = Function.update s.pc t p)
    (hq : (s.pc t).updating = false ∧ p.updating = false) (hc : s'.clients = s.clients)
    (hd : s'.clientsID = s.clientsID) (hv : s'.idValue = s.idValue) : Numbered ids s' where
  listed t' h := by
    rw [hpc] at h ⊢
    by_cases ht : t' = t
    · subst ht
      rw [Function.update_self,hq.2] at h
      cases h
    · rw [Function.update_of_ne ht] at h ⊢
      rw [hc,hd]
      exact hn.listed t' h
  rest h := by
    rw [hc,hd]
    refine hn.rest fun t' => ?_
    by_cases ht : t' = t
    · rw [ht,hq.1]
    · simpa [hpc,ht] using h t'
  sorted := hd ▸ hn.sorted
  bounded := by
    rw [hd,hv]
    exact hn.bounded

variable {ids : C → ℕ} {s s' : Conf T C} {t : T} {c : C}

/-- A thread that alone may be updating after a step, or has been. -/
theorem Numbered.listed_update {p : ClientPc C} (hi : Inv s) (hc : (s.pc t).critical)
    (hpc : s'.pc = Function.update s.pc t p)
    (hp : p.updating → p.Listed ids s'.clients s'.clientsID) (t' : T)
    (h : (s'.pc t').updating) : (s'.pc t').Listed ids s'.clients s'.clientsID := by
  rw [hpc] at h ⊢
  by_cases ht : t' = t
  · subst ht
    rw [Function.update_self] at h ⊢
    exact hp h
  · rw [Function.update_of_ne ht,hi.updating_ne hc ht] at h
    cases h

variable [DecidableEq C]

theorem stepClient_lists (h : stepClient s t = some s') :
    ListMove s s' t := by
  cases hp : s.pc t
  all_goals simp only [stepClient,hp] at h
  case idle | failed => cases h
  case regClient c =>
    cases h
    exact .client c hp rfl rfl rfl rfl
  case regId c =>
    cases h
    exact .ident c hp rfl rfl rfl rfl
  case derErase c ix =>
    cases h
    exact .erase c ix hp rfl rfl rfl rfl
  case derEraseId c ix =>
    cases h
    exact .eraseId c ix hp rfl rfl rfl rfl
  case regLock c | derLock c =>
    split at h <;> cases h
    refine .quiet _ rfl ?_ rfl rfl rfl ?_ <;> simp [hp,ClientPc.updating,ClientPc.unnumbered]
  case derCas c =>
    split at h <;> cases h <;> refine .quiet _ rfl ?_ rfl rfl rfl ?_ <;>
      simp [hp,ClientPc.updating,ClientPc.unnumbered]
  case derFind c ix =>
    split at h <;> cases h
    · refine .quiet _ rfl ?_ rfl rfl rfl ?_ <;> simp [hp,ClientPc.updating,ClientPc.unnumbered]
    · refine .quiet _ rfl ?_ rfl rfl rfl ?_ <;> split <;>
        simp [hp,ClientPc.updating,ClientPc.unnumbered]
  case regLoad c | regCheck c | derYield c e =>
    cases h
    refine .quiet _ rfl ?_ rfl rfl rfl ?_ <;> split <;>
      simp [hp,ClientPc.updating,ClientPc.unnumbered]
  all_goals
    cases h
    refine .quiet _ rfl ?_ rfl rfl rfl ?_ <;> simp [hp,ClientPc.updating,ClientPc.unnumbered]

theorem stepClient_numbered (hi : Inv s) (hn : Numbered ids s) (h : stepClient s t = some s')
    (hw : s.idValue+(s.pc t).numbers < 2^32) :
    ∃ ids', Numbered ids' s' ∧ ∀ c, Settled s c → ids' c = ids c := by
  have hok := hi.threads t
  cases stepClient_lists h with
  | quiet p hpc hq hc hd hv hu => exact ⟨ids,hn.quiet hpc hq hc hd hv,fun _ _ => rfl⟩
  | client c hp hpc hc hd hv =>
    have hcr : (s.pc t).critical := by rw [hp]; rfl
    have he := hn.rest_of_critical hi hcr (by rw [hp]; rfl)
    refine ⟨ids,⟨Numbered.listed_update hi hcr hpc fun _ => ⟨_,hc,hd.trans he⟩,fun hr => ?_,
      hd ▸ hn.sorted,?_⟩,fun _ _ => rfl⟩
    · have h := hr t
      rw [hpc,Function.update_self] at h
      cases h
    · rw [hd,hv]
      exact hn.bounded
  | ident c hp hpc hc hd hv =>
    have hcr : (s.pc t).critical := by rw [hp]; rfl
    obtain ⟨l,hl,hm⟩ : ClientPc.Listed ids s.clients s.clientsID (.regId c) :=
      hp ▸ hn.listed t (by rw [hp]; rfl)
    rw [hp] at hw
    have hv' : s'.idValue = s.idValue+1 := hv.trans (Nat.mod_eq_of_lt hw)
    have hcl : c ∉ l := by
      have hnd := hl ▸ hi.nodup
      exact fun h => (List.nodup_append.mp hnd).2.2 c h c (by simp) rfl
    refine ⟨Function.update ids c s'.idValue,⟨Numbered.listed_update hi hcr hpc (fun h => nomatch h),
      fun _ => ?_,?_,?_⟩,fun c' hc' => ?_⟩
    · rw [hd,hc,hl,hm,List.map_append]
      refine congrArg₂ _ (List.map_congr_left fun c' hc' => ?_) (by simp)
      rw [Function.update_of_ne (ne_of_mem_of_not_mem hc' hcl)]
    · rw [hd,List.pairwise_append]
      refine ⟨hn.sorted,List.pairwise_singleton _ _,fun id hid id' hid' => ?_⟩
      obtain rfl := List.mem_singleton.mp hid'
      have hb := (hn.bounded id hid).2
      omega
    · intro id hid
      rw [hd] at hid
      rcases List.mem_append.mp hid with hid | hid
      · have hb := hn.bounded id hid
        omega
      · obtain rfl := List.mem_singleton.mp hid
        omega
    · refine Function.update_of_ne ?_ _ _
      rintro rfl
      exact hc'.numbered t (by rw [hp]; rfl)
  | erase c ix hp hpc hc hd hv =>
    have hcr : (s.pc t).critical := by rw [hp]; rfl
    have he := hn.rest_of_critical hi hcr (by rw [hp]; rfl)
    refine ⟨ids,⟨Numbered.listed_update hi hcr hpc fun _ => ?_,fun hr => ?_,hd ▸ hn.sorted,?_⟩,
      fun _ _ => rfl⟩
    · show s'.clientsID.eraseIdx ix = s'.clients.map ids
      rw [hd,hc,he,List.eraseIdx_map]
    · have h := hr t
      rw [hpc,Function.update_self] at h
      cases h
    · rw [hd,hv]
      exact hn.bounded
  | eraseId c ix hp hpc hc hd hv =>
    have hcr : (s.pc t).critical := by rw [hp]; rfl
    have he : s.clientsID.eraseIdx ix = s.clients.map ids := by
      have h := hn.listed t (by rw [hp]; rfl)
      rwa [hp] at h
    refine ⟨ids,⟨Numbered.listed_update hi hcr hpc (fun h => nomatch h),fun _ => ?_,?_,?_⟩,
      fun _ _ => rfl⟩
    · rw [hd,hc,he]
    · rw [hd]
      exact hn.sorted.eraseIdx ix
    · rw [hd,hv]
      exact fun id hid => hn.bounded id (List.mem_of_mem_eraseIdx hid)

theorem fire_numbered (hi : Inv s) (hn : Numbered ids s) {a : Label T C} (h : fire s a = some s')
    (hw : s.idValue+registers s a < 2^32) :
    ∃ ids', Numbered ids' s' ∧ ∀ c, Settled s c → ids' c = ids c := by
  cases fire_cases hi h with
  | client h => exact stepClient_numbered hi hn h hw
  | collector h =>
    have m := stepCollector_move hi h
    exact ⟨ids,hn.same m.pc m.clients m.clientsID (stepCollector_idValue h),fun _ _ => rfl⟩
  | pass | enqueue | emptied => exact ⟨ids,hn.same rfl rfl rfl rfl,fun _ _ => rfl⟩
  | @register t c ht | @deregister t c ht =>
    refine ⟨ids,hn.quiet (t:=t) rfl ⟨?_,rfl⟩ rfl rfl rfl,fun _ _ => rfl⟩
    rw [ht]
    rfl

theorem fire_idValue (hi : Inv s) {a : Label T C} (h : fire s a = some s')
    (hw : s.idValue+registers s a < 2^32) : s'.idValue = s.idValue+registers s a := by
  cases fire_cases hi h with
  | @client t s' h =>
    cases stepClient_lists h with
    | ident c hp hpc hc hd hv =>
      simp only [registers,hp,ClientPc.numbers] at hw ⊢
      rw [hv,Nat.mod_eq_of_lt hw]
    | quiet p hpc hq hc hd hv hu =>
      have h0 : (s.pc t).numbers = 0 := by
        cases hp : s.pc t <;> first | rfl | (rw [hp] at hq; cases hq.1)
      simp [registers,h0,hv]
    | client c hp hpc hc hd hv | erase c ix hp hpc hc hd hv | eraseId c ix hp hpc hc hd hv =>
      simp [registers,hp,ClientPc.numbers,hv]
  | collector h => exact stepCollector_idValue h
  | register | deregister | pass | enqueue | emptied => rfl

theorem fire_settled (hi : Inv s) (hs : Settled s c) {a : Label T C} (h : fire s a = some s') :
    Settled s' c := by
  cases fire_cases hi h with
  | @client t s' h =>
    constructor
    · rcases stepClient_life (c:=c) hi h with he | ⟨-,he⟩ | ⟨-,he⟩ <;> rw [he]
      · exact hs.born
      · simp
      · simp
    · intro t'
      have ht := hs.numbered t'
      have hu : ∀ p, s'.pc = Function.update s.pc t p →
          (p.unnumbered = none ∨ p.unnumbered = (s.pc t).unnumbered) →
          (s'.pc t').unnumbered ≠ some c := by
        intro p hpc hp
        rw [hpc]
        by_cases hte : t' = t
        · subst hte
          rw [Function.update_self]
          rcases hp with hp | hp <;> rw [hp]
          · simp
          · exact ht
        · rwa [Function.update_of_ne hte]
      cases stepClient_lists h with
      | quiet p hpc hq hc hd hv hp => exact hu p hpc hp
      | client c' hp hpc hc hd hv => exact hu _ hpc (.inr (by rw [hp]; rfl))
      | ident c' hp hpc hc hd hv => exact hu _ hpc (.inl rfl)
      | erase c' ix hp hpc hc hd hv => exact hu _ hpc (.inl rfl)
      | eraseId c' ix hp hpc hc hd hv => exact hu _ hpc (.inl rfl)
  | collector h =>
    have m := stepCollector_move hi h
    exact ⟨by rw [m.life]; exact hs.born,by rw [m.pc]; exact hs.numbered⟩
  | pass | enqueue | emptied => exact ⟨hs.born,hs.numbered⟩
  | @register t c' ht hl =>
    have hne : c ≠ c' := by
      rintro rfl
      exact hs.born hl
    refine ⟨by simpa [hne] using hs.born,fun t' => ?_⟩
    by_cases ht : t' = t
    · simpa [ht,ClientPc.unnumbered] using Ne.symm hne
    · simpa [ht] using hs.numbered t'
  | @deregister t c' ht hl =>
    constructor
    · by_cases hc : c = c'
      · simp [hc]
      · simpa [hc] using hs.born
    · intro t'
      by_cases ht : t' = t
      · simp [ht,ClientPc.unnumbered]
      · simpa [ht] using hs.numbered t'

/-- `collector_thread` is never set back to NULL. -/
theorem fire_bound (hi : Inv s) {a : Label T C} (h : fire s a = some s') (hb : s.bound c) :
    s'.bound c := by
  cases fire_cases hi h with
  | @client t s' h =>
    cases hp : s.pc t <;> simp only [stepClient,hp] at h
    case idle | failed => cases h
    case regThread c' =>
      cases h
      by_cases hc : c = c'
      · simp [hc]
      · simpa [hc] using hb
    case regLock | derLock | derCas | derFind => split at h <;> cases h <;> exact hb
    all_goals
      cases h
      exact hb
  | collector h => exact (stepCollector_move hi h).bound ▸ hb
  | register | deregister | pass | enqueue | emptied => exact hb

theorem fire_life {a : Label T C} (hi : Inv s) (h : fire s a = some s') :
    s'.life c = s.life c ∨ (∃ t, s'.life c = .registering t) ∨ s'.life c = .live ∨
      s.life c = .live ∨ ∃ t, s.life c = .deregistering t := by
  cases fire_cases hi h with
  | @client t s' h =>
    rcases stepClient_life (c:=c) hi h with he | he | ⟨he,-⟩
    · exact .inl he
    · exact .inr (.inr (.inl he.2))
    · exact .inr (.inr (.inr (.inr ⟨t,he⟩)))
  | collector h => exact .inl (congrFun (stepCollector_move hi h).life c)
  | @register t c' ht hl =>
    by_cases hc : c = c'
    · exact .inr (.inl ⟨t,by simp [hc]⟩)
    · exact .inl (by simp [hc])
  | @deregister t c' ht hl =>
    by_cases hc : c = c'
    · exact .inr (.inr (.inr (.inl (hc ▸ hl))))
    · exact .inl (by simp [hc])
  | pass | enqueue | emptied => exact .inl rfl

/-- So a second `RegisterClient` of a client fails its second assertion. -/
theorem reachable_bound (hr : (system T C).Reachable s)
    (hl : s.life c = .gone ∨ ∃ t, s.life c = .deregistering t) : s.bound c := by
  revert hl
  refine hr.invariant (I:=fun s => s.life c = .gone ∨ (∃ t, s.life c = .deregistering t) → s.bound c)
    (fun s hs => ?_) fun s a s' hr hI hf hl => ?_
  · obtain rfl : s = start := hs
    simp [start]
  · have hi := reachable_inv hr
    refine fire_bound hi hf ?_
    have hlife := hi.lives c
    rcases fire_life (c:=c) hi hf with he | ⟨t,he⟩ | he | he | he
    · exact hI (he ▸ hl)
    · rw [he] at hl
      simp at hl
    · rw [he] at hl
      simp at hl
    · simp only [LifeOk,he] at hlife
      exact hlife.2.1
    · exact hI (.inr he)

end Step

end CollectorThread
end Benedias
