import Rexv6.Foundation.Tally
import Rexv6.Fs.Contents

/-!
Contract: the slots of the inode cache.

Owns: what `iget`, `idup`, `ilock` and `iunlock` do to a slot, and the reasons
for which they stop, and what `iput` does unless it frees the inode.

Does not own: who holds the references and the locks.
-/

namespace Rexv6.Fs

open Rexv6.Foundation
open Rexv6.Foundation.Resumption
open Rexv6.Foundation.Tally (one)
open Function (update update_eq_self update_idem update_of_ne update_self)

def State.withInode (s : State) (ip : Slot) (inode : Inode) : State :=
  { s with inode := update s.inode ip inode }

/-- What `iget` leaves behind: the slot that holds inode `inum` already, with one
more reference, or a free slot. -/
def Got (inum : Nat) (ip : Slot) (s s' : State) : Prop :=
  (0 < (s.inode ip).ref ∧ (s.inode ip).inum = inum ∧
    s' = s.withInode ip { s.inode ip with ref := (s.inode ip).ref + 1 }) ∨
  ((∀ jp, 0 < (s.inode jp).ref → (s.inode jp).inum ≠ inum) ∧ (s.inode ip).ref = 0 ∧
    s' = s.withInode ip { s.inode ip with inum := inum, ref := 1, valid := false })

def noInodes : Stop := .panic "iget: no inodes"

theorem iget_meets (s : State) (inum : Nat) :
    Meets (iget inum) s (fun ip s' => Got inum ip s s')
      (fun stop => stop = noInodes ∧ ∀ ip, (s.inode ip).ref ≠ 0) := by
  rw [iget, Meets, meets_bind, meets_get]
  cases cached : slots.find? fun ip => 0 < (s.inode ip).ref ∧ (s.inode ip).inum = inum with
  | some ip =>
    have isCached := List.find?_some cached
    simp only [decide_eq_true_eq] at isCached
    exact Or.inl ⟨isCached.1, isCached.2, rfl⟩
  | none =>
    have notCached := List.find?_eq_none.mp cached
    simp only [decide_eq_true_eq] at notCached
    cases free : slots.find? fun ip => (s.inode ip).ref = 0 with
    | some ip =>
      have isFree := List.find?_some free
      simp only [decide_eq_true_eq] at isFree
      refine Or.inr ⟨fun jp held isInum => ?_, isFree, rfl⟩
      exact notCached jp (List.mem_finRange jp) ⟨held, isInum⟩
    | none =>
      have notFree := List.find?_eq_none.mp free
      simp only [decide_eq_true_eq] at notFree
      exact ⟨rfl, fun ip => notFree ip (List.mem_finRange ip)⟩

@[simp] theorem withInode_inode (s : State) (ip : Slot) (inode : Inode) :
    (s.withInode ip inode).inode = update s.inode ip inode := rfl

@[simp] theorem withInode_disk (s : State) (ip : Slot) (inode : Inode) :
    (s.withInode ip inode).disk = s.disk := rfl

@[simp] theorem withInode_sb (s : State) (ip : Slot) (inode : Inode) :
    (s.withInode ip inode).sb = s.sb := rfl

@[simp] theorem withInode_withInode (s : State) (ip : Slot) (first second : Inode) :
    (s.withInode ip first).withInode ip second = s.withInode ip second := by
  unfold State.withInode
  rw [update_idem]

/-- A wait for a lock that is held never ends, because nothing else runs. -/
theorem acquiresleep_meets {s : State} {ip : Slot} {post : Unit → State → Prop}
    {stops : Stop → Prop}
    (free : (s.inode ip).locked = false →
      post () (s.withInode ip { s.inode ip with locked := true }))
    (held : (s.inode ip).locked = true → stops .deadlock) :
    Meets (acquiresleep ip) s post stops := by
  rw [acquiresleep, Meets, meets_bind, meets_await]
  cases locked : (s.inode ip).locked with
  | false =>
    rw [if_pos (by simp [ready, locked])]
    exact free locked
  | true =>
    rw [if_neg (by simp [ready, locked])]
    exact held locked

theorem releasesleep_meets {s : State} {ip : Slot} {post : Unit → State → Prop}
    {stops : Stop → Prop} (holds : post () (s.withInode ip { s.inode ip with locked := false })) :
    Meets (releasesleep ip) s post stops := by
  rw [releasesleep, Meets, meets_bind]
  apply meets_setInode.mpr
  apply meets_await.mpr
  exact holds

def outOfRange : Stop := .panic "iderw: block out of range"

theorem bread_cases (s : State) (b : Nat) :
    Meets (bread b) s (fun data s' => b < s.disksize ∧ data = s.disk b ∧ s' = s)
      (fun stop => stop = outOfRange ∧ s.disksize ≤ b) := by
  by_cases onDisk : b < s.disksize
  · exact bread_meets onDisk ⟨onDisk, rfl, rfl⟩
  · rw [bread, Meets, meets_bind, meets_get, if_pos (by omega)]
    exact ⟨rfl, by omega⟩

/-- The state after `ilock`: the copy is read from the disk if there is none. -/
def State.afterIlock (s : State) (ip : Slot) : State :=
  s.withInode ip
    { s.inode ip with
      locked := true
      valid := true
      din := if (s.inode ip).valid = true then (s.inode ip).din
        else dinodeAt s.sb s.disk (s.inode ip).inum }

def noType : Stop := .panic "ilock: no type"

theorem ilock_meets (s : State) (ip : Slot) :
    Meets (ilock ip) s
      (fun _ s' => 1 ≤ (s.inode ip).ref ∧ (s.inode ip).locked = false ∧
        ((s.inode ip).valid = false → (dinodeAt s.sb s.disk (s.inode ip).inum).type ≠ 0) ∧
          s' = s.afterIlock ip)
      (fun stop => (stop = .panic "ilock" ∧ (s.inode ip).ref < 1) ∨
        (stop = .deadlock ∧ (s.inode ip).locked = true) ∨
        (stop = outOfRange ∧ s.disksize ≤ s.sb.iblock (s.inode ip).inum) ∨
        (stop = noType ∧ (s.inode ip).valid = false ∧
          (dinodeAt s.sb s.disk (s.inode ip).inum).type = 0)) := by
  rw [ilock, Meets, meets_bind, meets_get]
  by_cases low : (s.inode ip).ref < 1
  · rw [if_pos low]
    exact Or.inl ⟨rfl, low⟩
  · rw [if_neg low, meets_bind]
    apply acquiresleep_meets
    · intro free
      rw [meets_bind, meets_get]
      simp only [withInode_inode, update_self, withInode_sb]
      cases valid : (s.inode ip).valid with
      | true =>
        refine ⟨by omega, free, by simp, ?_⟩
        simp [State.afterIlock, valid]
      | false =>
        apply Meets.bind
        · apply (bread_cases _ _).imp (fun _ _ result => result)
          rintro stop ⟨isStop, behind⟩
          exact Or.inr (Or.inr (Or.inl ⟨isStop, behind⟩))
        · rintro data after ⟨_, isData, same⟩
          rw [same, isData, meets_bind]
          apply meets_setInode.mpr
          split
          · rename_i untyped
            exact Or.inr (Or.inr (Or.inr ⟨rfl, rfl, untyped⟩))
          · rename_i typed
            refine ⟨by omega, free, fun _ => typed, ?_⟩
            unfold State.afterIlock State.withInode
            rw [if_neg (by simp [valid])]
            dsimp only
            rw [update_idem, update_self]
            rfl
    · intro held
      exact Or.inr (Or.inl ⟨rfl, held⟩)

/-! ## `iput` -/

/-- `iput` of an inode that has a link, no copy, or another reference: only the
reference goes. -/
theorem iput_drops {s : State} {ip : Slot} {post : Unit → State → Prop} {stops : Stop → Prop}
    (free : (s.inode ip).locked = false)
    (kept : (s.inode ip).valid = true → (s.inode ip).din.nlink = 0 → (s.inode ip).ref ≠ 1)
    (holds : post () (s.withInode ip { s.inode ip with ref := (s.inode ip).ref - 1 })) :
    Meets (iput ip) s post stops := by
  have finish : Meets (do
      releasesleep ip
      setInode ip fun inode => { inode with ref := inode.ref - 1 })
        (s.withInode ip { s.inode ip with locked := true }) post stops := by
    rw [Meets, meets_bind]
    apply releasesleep_meets
    apply meets_setInode.mpr
    have final : s.withInode ip { s.inode ip with ref := (s.inode ip).ref - 1 } =
        s.withInode ip { s.inode ip with locked := false, ref := (s.inode ip).ref - 1 } := by
      rw [← free]
    rw [final] at holds
    simpa [State.withInode] using holds
  rw [iput, Meets, meets_bind]
  apply acquiresleep_meets
  · intro _
    rw [meets_bind, meets_get]
    simp only [withInode_inode, update_self]
    split
    · rename_i orphan
      rw [if_neg (kept orphan.1 orphan.2)]
      exact finish
    · exact finish
  · intro held
    rw [free] at held
    cases held

/-- `iput` waits for the lock, also if the caller holds it itself. -/
theorem iput_blocks {s : State} {ip : Slot} (held : (s.inode ip).locked = true) :
    run (iput ip) s = .error .deadlock := by
  have stuck : Meets (iput ip) s (fun _ _ => False) (fun stop => stop = .deadlock) := by
    rw [iput, Meets, meets_bind]
    apply acquiresleep_meets
    · intro free
      rw [held] at free
      cases free
    · intro _
      rfl
  unfold run
  cases outcome : (iput ip s).run ready fun _ => Stop.deadlock with
  | ok result => exact (stuck.of_run outcome).elim
  | error stop => rw [stuck.of_stop outcome]

/-- Only slots that nobody refers to have changed. -/
structure Recycled (s s' : State) : Prop where
  disk : s'.disk = s.disk
  disksize : s'.disksize = s.disksize
  sb : s'.sb = s.sb
  devsw : s'.devsw = s.devsw
  logged : s'.logged = s.logged
  used : ∀ ip, (s.inode ip).ref ≠ 0 → s'.inode ip = s.inode ip
  unused : ∀ ip, (s.inode ip).ref = 0 → (s'.inode ip).ref = 0

theorem Recycled.refl (s : State) : Recycled s s :=
  ⟨rfl, rfl, rfl, rfl, rfl, fun _ _ => rfl, fun _ unused => unused⟩

/-- A reference that was just taken is dropped again: this inode is not freed,
because either there was a reference before or there is no copy yet. -/
theorem iput_got {inum : Nat} {s s' : State} {ip : Slot} {post : Unit → State → Prop}
    {stops : Stop → Prop} (got : Got inum ip s s') (free : (s.inode ip).locked = false)
    (holds : ∀ after, Recycled s after → post () after) : Meets (iput ip) s' post stops := by
  rcases got with ⟨inUse, _, isAfter⟩ | ⟨_, unused, isAfter⟩
  · rw [isAfter]
    apply iput_drops
    · simpa using free
    · intro _ _
      simp only [withInode_inode, update_self]
      omega
    · apply holds
      simp only [withInode_inode, update_self, withInode_withInode, Int.add_sub_cancel]
      have same : s.withInode ip (s.inode ip) = s := by
        unfold State.withInode
        rw [update_eq_self]
      rw [same]
      exact Recycled.refl s
  · rw [isAfter]
    apply iput_drops
    · simpa using free
    · intro valid
      simp at valid
    · apply holds
      simp only [withInode_inode, update_self, withInode_withInode]
      refine ⟨rfl, rfl, rfl, rfl, rfl, fun jp used => ?_, fun jp isUnused => ?_⟩
      · apply update_of_ne
        rintro rfl
        exact used unused
      · by_cases same : jp = ip
        · rw [same, withInode_inode, update_self]
          rfl
        · rw [withInode_inode, update_of_ne same]
          exact isUnused

/-! ## References -/

/-- The references that a lookup returns. -/
def found {α : Type} (result : Option (Slot × α)) : Slot → Int := one (result.map Prod.fst)

end Rexv6.Fs
