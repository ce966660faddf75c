import Benedias.SharedListRuns

/-! The protocol of the clients, and what the threads know of the objects they handle: the object
that a node is queued with, and that the objects which `Collect` is about to delete are guarded by
nobody or are in `all_haz_ptrs`. -/
namespace Benedias
namespace SharedList

open Interleaving LinkedChain BinarySearch HazardPointerList

variable {T L : Type}

/-- The node holds a validated pointer to the object. -/
def Guards (c : Conf T L) (node obj : ℕ) : Prop :=
  c.valid node ∧ (c.mem.node node).pointer = obj

/-- `Delete` has been called on the object, and it is not deleted yet. -/
def Retired (c : Conf T L) (obj : ℕ) : Prop := ∃ n < c.mem.fresh, c.cargo n = obj

/-- A remover holds a validated pointer to the object, has removed the object from all locations,
and nobody else has called `Delete` on it; a retired object is stored nowhere. -/
def Protocol (c : Conf T L) : Label T L → Prop
  | .delete _ node _ =>
    (c.mem.node node).pointer = 0 ∨ c.valid node ∧ (∀ l, c.loc l ≠ (c.mem.node node).pointer) ∧
      ¬Retired c (c.mem.node node).pointer
  | .store _ obj => obj = 0 ∨ ¬Retired c obj
  | _ => True

/-- The nodes that the scan of `Collect` has still to read, from its read of `nodes` until its
read of `gc_list`. -/
def Pc.unread (c : Conf T L) : Pc L → Option (List ℕ)
  | .scanTest n | .scanPush n => some (c.fixed.dropWhile (· ≠ n))
  | .scanLink n => some (c.fixed.dropWhile (· ≠ n)).tail
  | .sort | .gcHead => some []
  | _ => none

/-- The node that a push onto the gc list is about to add. -/
def Write.queues : Write → Option ℕ
  | .push .gcList n => some n
  | _ => Option.none

/-- No push onto the gc list, from the scan's read of `nodes` until the read of `gc_list`, brings
an object that a node guards which the scan has passed without putting it in `all_haz_ptrs`. -/
def NoLateQueue (c : Conf T L) (a : Label T L) : Prop :=
  ∀ n ∈ (c.writeOf a).queues, ∀ u, ∀ l ∈ (c.pc u).unread c,
    ∀ m ∈ c.fixed, Guards c m (c.cargo n) → c.cargo n ∈ c.mem.allHazPtrs ∨ m ∈ l

/-- The objects of the queued nodes that some node guards are in `all_haz_ptrs`, or will be. -/
def Covered (c : Conf T L) (queued unread : List ℕ) : Prop :=
  ∀ n ∈ queued, c.cargo n ≠ 0 → ∀ m, Guards c m (c.cargo n) →
    c.cargo n ∈ c.mem.allHazPtrs ∨ m ∈ unread

def PushFor.left (c : Conf T L) : PushFor → Option (List ℕ)
  | .collect next => some (c.gc.dropWhile (· ≠ next))
  | _ => none

/-- The nodes that the traversal of `Collect` has not decided on. -/
def Pc.left (c : Conf T L) : Pc L → Option (List ℕ)
  | .gcNext g | .gcObj g _ | .gcPointer g _ _ => some (c.gc.dropWhile (· ≠ g))
  | .gcStore _ nx _ | .gcDelete _ nx _ => some (c.gc.dropWhile (· ≠ nx))
  | .remTest _ nx _ | .remEnd _ nx _ | .remNext _ nx _ | .remExit _ nx _ | .remExpected _ nx _
  | .remDesired _ nx _ _ | .remCas _ nx _ _ _ | .remClear _ nx | .gcEnd _ nx =>
    some (c.gc.dropWhile (· ≠ nx))
  | .pushCheck _ _ f | .pushLoad _ _ f | .pushStore _ _ _ f | .pushCas _ _ f => f.left c
  | .pushFailed _ _ _ f => f.left c
  | _ => none

/-- `all_haz_ptrs` is sorted and the traversal is not over. -/
def Pc.sorted (c : Conf T L) (p : Pc L) : Prop := p = .gcHead ∨ (p.left c).isSome

/-- The object that `Collect` has taken from the node is the one that the node was queued with, and
it is guarded by nobody. -/
structure Doomed (c : Conf T L) (node obj : ℕ) : Prop where
  cargo : obj = c.cargo node
  ne_zero : obj ≠ 0
  unguarded : ∀ m, ¬Guards c m obj

/-- What a thread knows of the nodes it works on. -/
def Knows (c : Conf T L) : Pc L → Prop
  | .valTest n _ obj => (c.mem.node n).pointer = obj
  | .delGc n _ | .delTest n _ | .delLoad n => (c.mem.node n).pointer = c.cargo n
  | .delExchange n obj => obj = c.cargo n
  | .delStore n _ | .delNext n | .delPointer n | .delGcPointer n =>
    (c.mem.node n).gcPointer = c.cargo n
  | .pushCheck n head _ | .pushLoad n head _ | .pushStore n _ head _ | .pushCas n head _
  | .pushFailed n _ head _ => head = .gcList → (c.mem.node n).gcPointer = c.cargo n
  | .gcPointer g _ obj => obj = c.cargo g ∧ obj ≠ 0
  | .gcStore g _ obj => Doomed c g obj
  | .gcDelete g _ obj => Doomed c g obj ∧ (c.mem.node g).gcPointer = 0
  | _ => True

structure Reclaims (c : Conf T L) : Prop where
  loc : ∀ n l, c.cargo n ≠ 0 → c.loc l ≠ c.cargo n
  valid : ∀ m, c.valid m → m ∈ c.fixed
  born : ∀ n, c.cargo n ≠ 0 → n < c.mem.fresh
  queued : ∀ n ∈ c.gc, (∀ t nx obj, c.pc t ≠ .gcDelete n nx obj) →
    (c.mem.node n).gcPointer = c.cargo n
  knows : ∀ t, Knows c (c.pc t)
  scan : ∀ t l, (c.pc t).unread c = some l → Covered c c.gc l
  walk : ∀ t l, (c.pc t).left c = some l → Covered c l []
  sorted : ∀ t, (c.pc t).sorted c → c.mem.allHazPtrs.Pairwise (· ≤ ·)

/-- The node whose object a write changes. -/
def Write.touches (c : Conf T L) : Write → Option ℕ
  | .pointer n _ | .gcPointer n _ | .validate n | .delete n _ => some n
  | .new => some c.mem.fresh
  | _ => Option.none

section Fields

variable (s : HazardPointerList) (n m v : ℕ) (r : Ref)

theorem setNext_pointer : ((s.setNext n v).node m).pointer = (s.node m).pointer :=
  (setNext_relinked s n v).pointer m

theorem setNext_gcPointer : ((s.setNext n v).node m).gcPointer = (s.node m).gcPointer :=
  (setNext_relinked s n v).gcPointer m

theorem setFixedLink_pointer : ((s.setFixedLink n v).node m).pointer = (s.node m).pointer := by
  rcases eq_or_ne m n with rfl | h <;> simp [setFixedLink,setNode, *]

theorem setFixedLink_gcPointer :
    ((s.setFixedLink n v).node m).gcPointer = (s.node m).gcPointer := by
  rcases eq_or_ne m n with rfl | h <;> simp [setFixedLink,setNode, *]

theorem assign_pointer : ((s.assign r v).node m).pointer = (s.node m).pointer := by
  cases r with
  | head head => cases head <;> rfl
  | next k => exact setNext_pointer s k m v

theorem assign_gcPointer : ((s.assign r v).node m).gcPointer = (s.node m).gcPointer := by
  cases r with
  | head head => cases head <;> rfl
  | next k => exact setNext_gcPointer s k m v

theorem assign_allHazPtrs : (s.assign r v).allHazPtrs = s.allHazPtrs := by
  cases r with
  | head head => cases head <;> rfl
  | next k => rfl

end Fields

section Frame

variable [DecidableEq T] {c : Conf T L} {place : ℕ → Place T} {t : T} {p p' : Pc L} {w : Write}
  {n m x : ℕ}

theorem loc_write : (c.write t w).loc = c.loc := by
  cases w with
  | push head m => cases head <;> rfl
  | pop m v =>
    simp only [Conf.write]
    split <;> rfl
  | _ => rfl

theorem cargo_write (hw : w.touches c ≠ some n) : (c.write t w).cargo n = c.cargo n := by
  cases w with
  | push head m => cases head <;> rfl
  | pop m v =>
    simp only [Conf.write]
    split <;> rfl
  | delete m obj =>
    refine Function.update_of_ne ?_ _ _
    rintro rfl
    exact hw rfl
  | _ => rfl

theorem cargo_write_ne (hn : (c.write t w).cargo n ≠ 0) : (c.write t w).cargo n = c.cargo n := by
  by_cases hw : w.touches c = some n
  · cases w with
    | delete m obj =>
      cases hw
      simp [Conf.write] at hn
    | push head m => cases hw
    | pop m v => cases hw
    | _ => rfl
  · exact cargo_write hw

theorem gcPointer_write (hw : w.touches c ≠ some n) :
    ((c.write t w).mem.node n).gcPointer = (c.mem.node n).gcPointer := by
  cases w with
  | pointer m v => exact setPointer_gcPointer _ _ _ _
  | gcPointer m v =>
    have hn : n ≠ m := by
      rintro rfl
      exact hw rfl
    exact congrArg _ (setGcPointer_ne _ _ _ hn)
  | fixedLink m v => exact setFixedLink_gcPointer _ _ _ _
  | next m v => exact setNext_gcPointer _ _ _ _
  | new =>
    have hn : n ≠ c.mem.fresh := by
      rintro rfl
      exact hw rfl
    exact congrArg _ (Function.update_of_ne hn _ _)
  | push head m => cases head <;> rfl
  | pop m v =>
    simp only [Conf.write]
    split <;> rfl
  | unlink r m d => exact assign_gcPointer _ _ _ _
  | _ => rfl

theorem pointer_write (hw : w.touches c ≠ some n) :
    ((c.write t w).mem.node n).pointer = (c.mem.node n).pointer := by
  cases w with
  | pointer m v =>
    have hn : n ≠ m := by
      rintro rfl
      exact hw rfl
    exact congrArg _ (setPointer_ne _ _ _ hn)
  | gcPointer m v => exact setGcPointer_pointer _ _ _ _
  | fixedLink m v => exact setFixedLink_pointer _ _ _ _
  | next m v => exact setNext_pointer _ _ _ _
  | new =>
    have hn : n ≠ c.mem.fresh := by
      rintro rfl
      exact hw rfl
    exact congrArg _ (Function.update_of_ne hn _ _)
  | push head m => cases head <;> rfl
  | pop m v =>
    simp only [Conf.write]
    split <;> rfl
  | unlink r m d => exact assign_pointer _ _ _ _
  | _ => rfl

theorem valid_write (hw : w.touches c ≠ some n) : (c.write t w).valid n = c.valid n := by
  cases w with
  | pointer m v | validate m =>
    refine Function.update_of_ne ?_ _ _
    rintro rfl
    exact hw rfl
  | push head m => cases head <;> rfl
  | pop m v =>
    simp only [Conf.write]
    split <;> rfl
  | _ => rfl

/-- Guards come from validation only. -/
theorem guards_write (hs : Shared c place) (hv : ∀ m, c.valid m → m ∈ c.fixed)
    (hg : Guards (c.write t w) m x) :
    Guards c m x ∨ w = .validate m ∧ (c.mem.node m).pointer = x := by
  by_cases hw : w.touches c = some m
  · cases w with
    | pointer n v =>
      cases hw
      have hf := hg.1
      simp [Conf.write] at hf
    | gcPointer n v => exact .inl ⟨hg.1,(setGcPointer_pointer _ _ _ _).symm.trans hg.2⟩
    | validate n =>
      cases hw
      exact .inr ⟨rfl,hg.2⟩
    | delete n obj => exact .inl hg
    | new =>
      cases hw
      exact absurd hs.fresh_unborn (hs.fixedBorn _ (hv _ hg.1))
    | _ => cases hw
  · exact .inl ⟨(valid_write hw).symm.trans hg.1,(pointer_write hw).symm.trans hg.2⟩

theorem allHazPtrs_write (hw : ¬w.locked) : (c.write t w).mem.allHazPtrs = c.mem.allHazPtrs := by
  cases w with
  | push head m => cases head <;> rfl
  | pop m v =>
    simp only [Conf.write]
    split <;> rfl
  | unlink _ _ _ | hazPtr v | sort | clear => exact absurd rfl hw
  | _ => rfl

theorem gc_write (hw : ¬w.locked) :
    (c.write t w).gc = c.gc ∧ w.queues = none ∨
      ∃ n, w = .push .gcList n ∧ (c.write t w).gc = n::c.gc := by
  cases w with
  | push head m =>
    cases head
    · exact .inr ⟨m,rfl,rfl⟩
    · exact .inl ⟨rfl,rfl⟩
  | pop m v =>
    simp only [Conf.write]
    split <;> exact .inl ⟨rfl,rfl⟩
  | unlink _ _ _ => exact absurd rfl hw
  | _ => exact .inl ⟨rfl,rfl⟩

theorem mem_gc_write (hn : n ∈ (c.write t w).gc) : n ∈ c.gc ∨ w = .push .gcList n := by
  cases w with
  | push head m =>
    cases head with
    | gcList =>
      rcases List.mem_cons.mp hn with rfl | hn
      · exact .inr rfl
      · exact .inl hn
    | freeList => exact .inl hn
  | pop m v =>
    simp only [Conf.write] at hn
    split at hn <;> exact .inl hn
  | unlink r m d => exact .inl (List.mem_of_mem_erase hn)
  | _ => exact .inl hn

theorem mem_gc_of_write (hw : ∀ r d, w ≠ .unlink r n d) (hn : n ∈ c.gc) :
    n ∈ (c.write t w).gc := by
  cases w with
  | unlink r m d =>
    refine (List.mem_erase_of_ne ?_).mpr hn
    rintro rfl
    exact hw r d rfl
  | push head m =>
    cases head with
    | freeList => exact hn
    | gcList => exact List.mem_cons_of_mem m hn
  | pop m d =>
    simp only [Conf.write]
    split <;> exact hn
  | _ => exact hn

theorem fixed_write : (c.write t w).fixed = c.fixed ∨
    ∃ n, w = .add n ∧ (c.write t w).fixed = n::c.fixed := by
  cases w with
  | add n => exact .inr ⟨n,rfl,rfl⟩
  | push head m => cases head <;> exact .inl rfl
  | pop m v =>
    simp only [Conf.write]
    split <;> exact .inl rfl
  | _ => exact .inl rfl

theorem fresh_write : c.mem.fresh ≤ (c.write t w).mem.fresh := by
  cases w with
  | new => exact Nat.le_succ _
  | push head m => cases head <;> exact le_rfl
  | pop m v =>
    simp only [Conf.write]
    split <;> exact le_rfl
  | unlink r n d =>
    cases r with
    | head head => cases head <;> exact le_rfl
    | next k => exact le_rfl
  | _ => exact le_rfl

end Frame

section Next

variable {c : Conf T L} {p p' : Pc L} {w : Write} {n x : ℕ}

theorem next_validate (h : p.next c = some (.validate n,p')) :
    ∃ l, p = .valTest n l (c.loc l) := by
  cases next_writes h with
  | validate => exact ⟨_,rfl⟩

theorem next_touches (h : p.next c = some (w,p')) (hw : w.touches c = some n) :
    p.own = some n ∨ n = c.mem.fresh ∨
      ∃ nx obj, p = .gcStore n nx obj ∨ p = .gcDelete n nx obj := by
  cases next_writes h with
  | new => exact .inr (.inl (Option.some.inj hw).symm)
  | acqStore | validate | clrStore | relStore | delExchange | delStore => exact .inl hw
  | gcStore =>
    cases hw
    exact .inr (.inr ⟨_,_,.inl rfl⟩)
  | gcDelete =>
    cases hw
    exact .inr (.inr ⟨_,_,.inr rfl⟩)
  | _ => cases hw

theorem next_push {head : Head} (h : p.next c = some (.push head n,p')) :
    ∃ f, p = .pushCas n head f := by
  cases next_writes h with
  | push hf => exact ⟨_,rfl⟩

theorem next_add (h : p.next c = some (.add n,p')) : p.adding = some n := by
  cases next_writes h with
  | add hf => rfl

theorem next_delete {obj : ℕ} (h : p.next c = some (.delete n obj,p')) :
    ∃ nx, p = .gcDelete n nx obj := by
  cases next_writes h with
  | gcDelete => exact ⟨_,rfl⟩

end Next

end SharedList
end Benedias
