/-
# The reference-counting garbage collector

Model of `storage/GarbageCollector.cpp`: "reference counting with lazy reclamation".  An object
whose count reaches zero is marked as deleted, and a later `runGC` reclaims what is marked.  The
mark is never taken back, so that a reference added in between does not save the object.

Result: `runGC` removes only objects without references exactly as long as no reference is added
to a marked object that has none.
-/
import SystemsDesign.TransitionSystem

namespace GarbageCollectors

open TransitionSystem

/-! ## The collector -/

/-- `Object`; its `object_id` is the key of the table. -/
structure Object where
  refCount : ℤ := 1
  deleted : Bool := false
  deriving DecidableEq

/-- The data member of `GCManager` besides `rwlock`. -/
structure GCManager where
  objectTable : ℤ → Option Object

/-- The table is empty at first. -/
def GCManager.new : GCManager where
  objectTable _ := none

namespace GCManager

/-- The entry of an object is changed or added. -/
def set (gc : GCManager) (objectId : ℤ) (obj : Object) : GCManager where
  objectTable := Function.update gc.objectTable objectId (some obj)

/-- `addObject`. -/
def addObject (gc : GCManager) (objectId : ℤ) : GCManager :=
  match gc.objectTable objectId with
  | some _ => gc
  | none => gc.set objectId {}

/-- `incrementRefCount`. -/
def incrementRefCount (gc : GCManager) (objectId : ℤ) : GCManager :=
  match gc.objectTable objectId with
  | none => gc
  | some obj => gc.set objectId { obj with refCount := obj.refCount + 1 }

/-- `decrementRefCount`: an object whose count has become zero is marked. -/
def decrementRefCount (gc : GCManager) (objectId : ℤ) : GCManager :=
  match gc.objectTable objectId with
  | none => gc
  | some obj =>
    let refCount := obj.refCount - 1
    gc.set objectId { refCount, deleted := if refCount = 0 then true else obj.deleted }

/-- `runGC`: the objects that are marked are taken out. -/
def runGC (gc : GCManager) : GCManager where
  objectTable objectId := (gc.objectTable objectId).filter fun obj => !obj.deleted

end GCManager

/-- The calls. -/
inductive Call where
  | addObject (objectId : ℤ)
  | incrementRefCount (objectId : ℤ)
  | decrementRefCount (objectId : ℤ)
  | runGC
  deriving DecidableEq

/-- One call. -/
def exec (gc : GCManager) : Call → GCManager
  | .addObject objectId => gc.addObject objectId
  | .incrementRefCount objectId => gc.incrementRefCount objectId
  | .decrementRefCount objectId => gc.decrementRefCount objectId
  | .runGC => gc.runGC

/-! ## What is collected -/

/-- `runGC` removes only objects whose count is not positive. -/
def CollectsSafely (gc : GCManager) : Prop :=
  ∀ objectId obj, gc.objectTable objectId = some obj → gc.runGC.objectTable objectId = none →
    obj.refCount ≤ 0

/-- The call, if it is one of `runGC`, removes only objects whose count is not positive. -/
def ReclaimsSafely (gc : GCManager) : Call → Prop
  | .runGC => CollectsSafely gc
  | _ => True

/-- The call does not add a reference to a marked object without one. -/
def RevivesNothing (gc : GCManager) : Call → Prop
  | .incrementRefCount objectId =>
    ∀ obj, gc.objectTable objectId = some obj → obj.deleted = true → obj.refCount ≠ 0
  | _ => True

section Collecting

variable {gc : GCManager} {objectId : ℤ} {obj : Object}

/-- `runGC` removes the objects that are marked, and no others. -/
theorem runGC_eq_none_iff (h : gc.objectTable objectId = some obj) :
    gc.runGC.objectTable objectId = none ↔ obj.deleted = true := by
  show (gc.objectTable objectId).filter _ = none ↔ _
  rw [h]
  cases hdeleted : obj.deleted <;> simp [hdeleted]

theorem collectsSafely_iff : CollectsSafely gc ↔ ∀ objectId obj,
    gc.objectTable objectId = some obj → obj.deleted = true → obj.refCount ≤ 0 := by
  constructor
  · intro h objectId obj hobj hdeleted
    exact h objectId obj hobj ((runGC_eq_none_iff hobj).mpr hdeleted)
  · intro h objectId obj hobj hnone
    exact h objectId obj hobj ((runGC_eq_none_iff hobj).mp hnone)

/-- After one entry has been set, only that entry has to be looked at. -/
theorem collectsSafely_set (h : CollectsSafely gc) :
    CollectsSafely (gc.set objectId obj) ↔ (obj.deleted = true → obj.refCount ≤ 0) := by
  rw [collectsSafely_iff] at h ⊢
  constructor
  · intro hset
    exact hset objectId obj (Function.update_self ..)
  · intro hobj objectId' obj' hlookup
    change Function.update gc.objectTable objectId (some obj) objectId' = some obj' at hlookup
    by_cases heq : objectId' = objectId
    · subst heq
      rw [Function.update_self] at hlookup
      obtain rfl := Option.some.inj hlookup
      exact hobj
    · rw [Function.update_of_ne heq] at hlookup
      exact h objectId' obj' hlookup

theorem collectsSafely_addObject (h : CollectsSafely gc) (objectId : ℤ) :
    CollectsSafely (gc.addObject objectId) := by
  unfold GCManager.addObject
  split
  · exact h
  · exact (collectsSafely_set h).mpr fun hdeleted => absurd hdeleted Bool.noConfusion

/-- A reference may be added, except to a marked object without one. -/
theorem collectsSafely_incrementRefCount (h : CollectsSafely gc) (objectId : ℤ) :
    CollectsSafely (gc.incrementRefCount objectId) ↔
      ∀ obj, gc.objectTable objectId = some obj → obj.deleted = true → obj.refCount ≠ 0 := by
  unfold GCManager.incrementRefCount
  split
  next hnone =>
    refine iff_of_true h fun obj hobj => ?_
    rw [hnone] at hobj
    cases hobj
  next obj hobj =>
    -- a marked object has count 0 or less, and may go up to 0
    have hmarked := collectsSafely_iff.mp h objectId obj hobj
    rw [collectsSafely_set h]
    constructor
    · intro hup obj' hobj' hdeleted
      obtain rfl := Option.some.inj (hobj.symm.trans hobj')
      have hle : obj.refCount + 1 ≤ 0 := hup hdeleted
      omega
    · intro hne hdeleted
      have hle := hmarked hdeleted
      have hzero := hne obj hobj hdeleted
      show obj.refCount + 1 ≤ 0
      omega

/-- An object is marked when its count is zero, and counts of marked objects go down. -/
theorem collectsSafely_decrementRefCount (h : CollectsSafely gc) (objectId : ℤ) :
    CollectsSafely (gc.decrementRefCount objectId) := by
  unfold GCManager.decrementRefCount
  split
  next => exact h
  next obj hobj =>
    have hmarked := collectsSafely_iff.mp h objectId obj hobj
    rw [collectsSafely_set h]
    dsimp only
    split_ifs with hzero
    · intro _
      exact hzero.le
    · intro hdeleted
      have hle := hmarked hdeleted
      omega

theorem collectsSafely_runGC (gc : GCManager) : CollectsSafely gc.runGC := by
  rw [collectsSafely_iff]
  intro objectId obj hobj hdeleted
  have hkept := (Option.filter_eq_some_iff.mp hobj).2
  rw [hdeleted] at hkept
  cases hkept

/-- **The marks stay right exactly if the call revives nothing.** -/
theorem collectsSafely_exec_iff (h : CollectsSafely gc) (c : Call) :
    CollectsSafely (exec gc c) ↔ RevivesNothing gc c := by
  cases c with
  | addObject objectId => exact iff_of_true (collectsSafely_addObject h objectId) trivial
  | incrementRefCount objectId => exact collectsSafely_incrementRefCount h objectId
  | decrementRefCount objectId =>
    exact iff_of_true (collectsSafely_decrementRefCount h objectId) trivial
  | runGC => exact iff_of_true (collectsSafely_runGC gc) trivial

end Collecting

/-! ## The result -/

/-- **The collector is safe as long as no marked object is revived**: then every call of `runGC`
that is made removes only objects without references.  And only then it could be called in every
state of the sequence. -/
theorem collectsSafely_always_iff (calls : List Call) :
    (Throughout exec RevivesNothing .new calls → Throughout exec ReclaimsSafely .new calls) ∧
    (Invariably exec CollectsSafely .new calls ↔ Throughout exec RevivesNothing .new calls) := by
  have hiff : Invariably exec CollectsSafely .new calls ↔
      Throughout exec RevivesNothing .new calls :=
    invariably_iff_throughout (fun _ c h => collectsSafely_exec_iff h c)
      fun _ _ hobj => absurd hobj (by simp [GCManager.new])
  refine ⟨fun h done c rest heq => ?_, hiff⟩
  cases c with
  | runGC => exact hiff.mpr h done _ heq
  | addObject _ => trivial
  | incrementRefCount _ => trivial
  | decrementRefCount _ => trivial

/-- An object loses its last reference and gets a new one before the collector runs. -/
def revived : List Call := [.addObject 1, .decrementRefCount 1, .incrementRefCount 1]

/-- The collector removes it although it is referenced. -/
theorem revived_collected :
    (revived.foldl exec .new).objectTable 1 = some { refCount := 1, deleted := true } ∧
      (revived.foldl exec .new).runGC.objectTable 1 = none ∧
      ¬ Throughout exec ReclaimsSafely .new (revived ++ [.runGC]) := by
  refine ⟨rfl, rfl, fun h => ?_⟩
  have hsafe : CollectsSafely (revived.foldl exec .new) := h revived .runGC [] rfl
  exact absurd (hsafe 1 { refCount := 1, deleted := true } rfl rfl) (by decide)

end GarbageCollectors
