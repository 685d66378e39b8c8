import Mathlib.Data.List.TakeWhile
import Rexv6.Foundation.Tally
import Rexv6.Fs.Cache
import Rexv6.Fs.DirectoryMaps
import Rexv6.Fs.Editing

/-!
Contract: path lookup is a fold of directory lookups over the components of the
path.

Owns: the components of a path, the inode that they lead to, and that `namei` and
`nameiparent`, run alone on a tree of directories, return it with one reference
and leave everything else as it was.

Does not own: how directories come to be well formed.
-/

namespace Rexv6.Fs

open Rexv6.Foundation
open Rexv6.Foundation.Resumption
open Rexv6.Foundation.Association
open Rexv6.Foundation.Tally
open Function (update update_of_ne update_self)

/-! ## Components -/

def text (path : List UInt8) : List UInt8 := path.takeWhile (· ≠ 0)

/-- The maximal runs of bytes other than `'/'`. -/
def pieces (string : List UInt8) : List (List UInt8) :=
  (string.splitOnP (· == slash)).filter (· ≠ [])

/-- The components of a path, each cut to `DIRSIZ` bytes. -/
def components (path : List UInt8) : List (List UInt8) :=
  (pieces (text path)).map (List.take dirSiz)

section Components

variable {path string piece rest : List UInt8}

theorem pieces_slash (string : List UInt8) : pieces (slash :: string) = pieces string := by
  unfold pieces
  simp [List.splitOnP_cons_eq_if_modifyHead]

theorem pieces_dropWhile (string : List UInt8) :
    pieces (string.dropWhile (· = slash)) = pieces string := by
  induction string with
  | nil => rfl
  | cons c string ih =>
    by_cases isSlash : c = slash
    · rw [isSlash, List.dropWhile_cons_of_pos (by simp), ih, pieces_slash]
    · rw [List.dropWhile_cons_of_neg (by simpa using isSlash)]

/-- A run that ends with the string or at a slash is the first piece. -/
theorem pieces_append (noSlash : slash ∉ piece) (nonempty : piece ≠ [])
    (ends : rest = [] ∨ ∃ tail, rest = slash :: tail) :
    pieces (piece ++ rest) = piece :: pieces rest := by
  have isPiece : ∀ c ∈ piece, (c == slash) = false := by
    intro c member
    rw [beq_eq_false_iff_ne]
    exact fun isSlash => noSlash (isSlash ▸ member)
  rcases ends with rfl | ⟨tail, rfl⟩
  · unfold pieces
    rw [List.append_nil, List.splitOnP_eq_singleton isPiece]
    simp [nonempty]
  · rw [pieces_slash]
    unfold pieces
    rw [List.splitOnP_append_cons_of_forall_mem isPiece slash (by simp)]
    simp [nonempty]

theorem text_dropWhile (path : List UInt8) :
    text (path.dropWhile (· = slash)) = (text path).dropWhile (· = slash) := by
  unfold text
  induction path with
  | nil => rfl
  | cons c path ih =>
    by_cases isSlash : c = slash
    · have nonzero : slash ≠ 0 := by decide
      rw [isSlash, List.dropWhile_cons_of_pos (by simp), ih,
        List.takeWhile_cons_of_pos (by simp [nonzero]), List.dropWhile_cons_of_pos (by simp)]
    · rw [List.dropWhile_cons_of_neg (by simpa using isSlash)]
      by_cases isZero : c = 0
      · simp [isZero]
      · rw [List.takeWhile_cons_of_pos (by simpa using isZero),
          List.dropWhile_cons_of_neg (by simpa using isSlash)]

theorem components_dropWhile (path : List UInt8) :
    components (path.dropWhile (· = slash)) = components path := by
  unfold components
  rw [text_dropWhile, pieces_dropWhile]

/-- The first component of a path that has no slash in front, and what is behind it. -/
theorem components_element {c : UInt8} {tail : List UInt8} (nonzero : c ≠ 0)
    (notSlash : c ≠ slash) :
    components (c :: tail) =
      ((c :: tail).takeWhile fun c => c ≠ slash ∧ c ≠ 0).take dirSiz ::
        components ((c :: tail).dropWhile fun c => c ≠ slash ∧ c ≠ 0) := by
  have whole := List.takeWhile_append_dropWhile (p := fun c => decide (c ≠ slash ∧ c ≠ 0))
    (l := c :: tail)
  have stops := List.head?_dropWhile_not (fun c => decide (c ≠ slash ∧ c ≠ 0)) (c :: tail)
  have members : ∀ b ∈ (c :: tail).takeWhile (fun c => c ≠ slash ∧ c ≠ 0), b ≠ slash ∧ b ≠ 0 := by
    intro b member
    simpa using List.mem_takeWhile_imp member
  have nonempty : (c :: tail).takeWhile (fun c => c ≠ slash ∧ c ≠ 0) ≠ [] := by
    rw [List.takeWhile_cons_of_pos (by simp [notSlash, nonzero])]
    simp
  revert whole stops members nonempty
  generalize (c :: tail).takeWhile (fun c => c ≠ slash ∧ c ≠ 0) = element
  generalize (c :: tail).dropWhile (fun c => c ≠ slash ∧ c ≠ 0) = rest
  intro whole stops members nonempty
  have split : text (element ++ rest) = element ++ text rest :=
    List.takeWhile_append_of_pos fun b member => by simpa using (members b member).2
  have ends : text rest = [] ∨ ∃ tail, text rest = slash :: tail := by
    cases rest with
    | nil => exact Or.inl rfl
    | cons b more =>
      by_cases isSlash : b = slash
      · rw [isSlash]
        exact Or.inr ⟨_, List.takeWhile_cons_of_pos (by decide)⟩
      · have isZero : b = 0 := by simpa [isSlash] using stops
        exact Or.inl (List.takeWhile_cons_of_neg (by simp [isZero]))
  unfold components
  rw [← whole, split, pieces_append (fun member => (members _ member).1 rfl) nonempty ends,
    List.map_cons]

/-- `skipelem` takes off the first component, and finds the end if there is none. -/
theorem skipelem_cases (path : List UInt8) :
    (skipelem path = none ∧ components path = []) ∨
      ∃ name rest, skipelem path = some (name, rest) ∧
        components path = name :: components rest ∧ rest.length < path.length ∧
        (rest.headD 0 = 0 ↔ components rest = []) := by
  have atEnd : ∀ string : List UInt8, string.headD 0 = 0 → components string = [] := by
    intro string zero
    cases string with
    | nil => rfl
    | cons c tail =>
      unfold components text
      rw [List.takeWhile_cons_of_neg (by simpa using zero)]
      rfl
  unfold skipelem
  have length := List.length_dropWhile_le (· = slash) path
  have first := List.head?_dropWhile_not (· = slash) path
  rw [← components_dropWhile path]
  revert length first
  generalize path.dropWhile (· = slash) = string
  intro length first
  by_cases zero : string.headD 0 = 0
  · exact Or.inl ⟨if_pos zero, atEnd string zero⟩
  · right
    cases string with
    | nil => exact absurd rfl zero
    | cons c tail =>
      have nonzero : c ≠ 0 := zero
      have notSlash : c ≠ slash := by simpa using first
      have whole := List.takeWhile_append_dropWhile (p := fun c => decide (c ≠ slash ∧ c ≠ 0))
        (l := c :: tail)
      have nonempty : 0 < ((c :: tail).takeWhile fun c => c ≠ slash ∧ c ≠ 0).length := by
        rw [List.takeWhile_cons_of_pos (by simp [notSlash, nonzero])]
        simp
      have behind : (c :: tail).drop ((c :: tail).takeWhile fun c => c ≠ slash ∧ c ≠ 0).length =
          (c :: tail).dropWhile fun c => c ≠ slash ∧ c ≠ 0 := by
        nth_rewrite 2 [← whole]
        exact List.drop_left
      refine ⟨_, _, if_neg zero, ?_, ?_, ?_⟩
      · rw [components_element nonzero notSlash, components_dropWhile, behind]
      · rw [behind]
        have shorter := List.length_dropWhile_le (· = slash)
          ((c :: tail).dropWhile fun c => c ≠ slash ∧ c ≠ 0)
        have parts := congrArg List.length whole
        rw [List.length_append] at parts
        omega
      · rw [behind]
        have last := List.head?_dropWhile_not (· = slash)
          ((c :: tail).dropWhile fun c => c ≠ slash ∧ c ≠ 0)
        revert last
        generalize ((c :: tail).dropWhile fun c => c ≠ slash ∧ c ≠ 0).dropWhile (· = slash) = rest
        intro last
        refine ⟨atEnd rest, fun none => ?_⟩
        cases rest with
        | nil => rfl
        | cons b more =>
          by_contra isByte
          have nonzero : b ≠ 0 := isByte
          rw [components_element nonzero (by simpa using last)] at none
          cases none

end Components

/-! ## The walk through the tree -/

/-- The fold of directory lookups over `names` from inode `inum` on: nothing if a
name is missing or is to be looked up in anything but a directory. -/
def resolve (s : State) : (inum : Nat) → (names : List (List UInt8)) → Option Nat
  | inum, [] => some inum
  | inum, name :: names =>
    if (dinodeAt s.sb s.disk inum).type = tDir then
      (find (content s inum) name).bind fun next => resolve s next names
    else none

/-- Where a path starts: at the root if it has a slash in front, otherwise at the
current directory. -/
def startOf (s : State) (cwd : Slot) (path : List UInt8) : Nat :=
  if path.headD 0 = slash then rootIno else (s.inode cwd).inum

/-- What `namex` looks for, with the name that it stores. -/
def target (parent : Bool) (s : State) :
    (inum : Nat) → (name : List UInt8) → (names : List (List UInt8)) → Option (Nat × List UInt8)
  | inum, name, [] => if parent = true then none else some (inum, name)
  | inum, _, name :: names =>
    if (dinodeAt s.sb s.disk inum).type = tDir then
      if parent = true ∧ names = [] then some (inum, name)
      else (find (content s inum) name).bind fun next => target parent s next name names
    else none

theorem target_false (s : State) (names : List (List UInt8)) : ∀ inum name,
    (target false s inum name names).map Prod.fst = resolve s inum names := by
  induction names with
  | nil =>
    intro inum name
    rfl
  | cons first names ih =>
    intro inum name
    rw [target, resolve]
    by_cases isDir : (dinodeAt s.sb s.disk inum).type = tDir
    · rw [if_pos isDir, if_pos isDir, if_neg (by simp), Option.map_bind]
      congr 1
      funext next
      exact ih next first
    · rw [if_neg isDir, if_neg isDir]
      rfl

/-- A tree of directories on a consistent disk: directories are well formed, and
the inodes that they name are allocated and linked. -/
structure Tree (s : State) : Prop where
  consistent : Consistent s
  root : Live s.sb (dinodeAt s.sb s.disk) rootIno ∧ (dinodeAt s.sb s.disk rootIno).nlink ≠ 0
  dirs : ∀ inum, Live s.sb (dinodeAt s.sb s.disk) inum → (dinodeAt s.sb s.disk inum).type = tDir →
    WellFormed (content s inum)
  closed : ∀ inum name next, Live s.sb (dinodeAt s.sb s.disk) inum →
    (dinodeAt s.sb s.disk inum).type = tDir → find (content s inum) name = some next →
      Live s.sb (dinodeAt s.sb s.disk) next ∧ (dinodeAt s.sb s.disk next).nlink ≠ 0

/-- The inode cache between system calls: nobody holds a lock, and the copies are
those on the disk. -/
structure Quiet (s : State) : Prop where
  nonneg : ∀ ip, 0 ≤ (s.inode ip).ref
  copies : ∀ ip, 0 < (s.inode ip).ref → (s.inode ip).valid = true →
    (s.inode ip).din = dinodeAt s.sb s.disk (s.inode ip).inum
  unlocked : ∀ ip, (s.inode ip).locked = false

/-- Two slots of the inode cache are free: path lookup holds two inodes at most. -/
def Room (s : State) : Prop := ∃ ip jp, ip ≠ jp ∧ (s.inode ip).ref = 0 ∧ (s.inode jp).ref = 0

/-- In a run from `s₀`, the process holds the references `held` and the lock
`lock`, and has changed nothing but slots of the inode cache. -/
structure Visits (s₀ : State) (held : Slot → Int) (lock : Option Slot) (s : State) : Prop where
  disk : s.disk = s₀.disk
  sb : s.sb = s₀.sb
  disksize : s.disksize = s₀.disksize
  devsw : s.devsw = s₀.devsw
  logged : s.logged = s₀.logged
  ref : ∀ ip, (s.inode ip).ref = (s₀.inode ip).ref + held ip
  inum : ∀ ip, 0 < (s₀.inode ip).ref → (s.inode ip).inum = (s₀.inode ip).inum
  copies : ∀ ip, 0 < (s.inode ip).ref → (s.inode ip).valid = true →
    (s.inode ip).din = dinodeAt s₀.sb s₀.disk (s.inode ip).inum
  locked : ∀ ip, (s.inode ip).locked = decide (lock = some ip)

/-- The slot holds an allocated inode that does not go away when the process drops
its reference. -/
structure Node (s₀ s : State) (ip : Slot) : Prop where
  live : Live s₀.sb (dinodeAt s₀.sb s₀.disk) (s.inode ip).inum
  kept : 0 < (s₀.inode ip).ref ∨ (dinodeAt s₀.sb s₀.disk (s.inode ip).inum).nlink ≠ 0

section Visits

variable {s₀ s s' : State} {held : Slot → Int} {lock : Option Slot} {ip : Slot} {inum : Nat}
  {post : Unit → State → Prop} {stops : Stop → Prop}

theorem Node.congr (node : Node s₀ s ip) (same : (s'.inode ip).inum = (s.inode ip).inum) :
    Node s₀ s' ip :=
  ⟨same ▸ node.live, same ▸ node.kept⟩

theorem Quiet.visits (quiet : Quiet s₀) : Visits s₀ (fun _ => 0) none s₀ where
  disk := rfl
  sb := rfl
  disksize := rfl
  devsw := rfl
  logged := rfl
  ref _ := (Int.add_zero _).symm
  inum _ _ := rfl
  copies := quiet.copies
  locked ip := by simp [quiet.unlocked ip]

theorem Visits.congr (visits : Visits s₀ held lock s) {held' : Slot → Int}
    (same : ∀ jp, held' jp = held jp) : Visits s₀ held' lock s := by
  rwa [show held' = held from funext same]

theorem Visits.change (visits : Visits s₀ held lock s) {inode : Inode} {held' : Slot → Int}
    {lock' : Option Slot} (ref : inode.ref = (s₀.inode ip).ref + held' ip)
    (others : ∀ jp, jp ≠ ip → held' jp = held jp ∧ (lock' = some jp ↔ lock = some jp))
    (number : 0 < (s₀.inode ip).ref → inode.inum = (s₀.inode ip).inum)
    (copy : 0 < inode.ref → inode.valid = true → inode.din = dinodeAt s₀.sb s₀.disk inode.inum)
    (locked : inode.locked = decide (lock' = some ip)) :
    Visits s₀ held' lock' (s.withInode ip inode) := by
  have self : (s.withInode ip inode).inode ip = inode := update_self _ _ _
  have other : ∀ {jp}, jp ≠ ip → (s.withInode ip inode).inode jp = s.inode jp := fun different =>
    update_of_ne different _ _
  refine ⟨visits.disk, visits.sb, visits.disksize, visits.devsw, visits.logged, fun jp => ?_,
    fun jp => ?_, fun jp => ?_, fun jp => ?_⟩
  · by_cases same : jp = ip
    · rw [same, self, ref]
    · rw [other same, (others jp same).1, visits.ref]
  · by_cases same : jp = ip
    · rw [same, self]
      exact number
    · rw [other same]
      exact visits.inum jp
  · by_cases same : jp = ip
    · rw [same, self]
      exact copy
    · rw [other same]
      exact visits.copies jp
  · by_cases same : jp = ip
    · rw [same, self, locked]
    · rw [other same, visits.locked, decide_eq_decide]
      exact (others jp same).2.symm

theorem Visits.got (visits : Visits s₀ held lock s) (got : Got inum ip s s')
    (quiet : Quiet s₀) (nonneg : ∀ jp, 0 ≤ held jp) :
    Visits s₀ (fun jp => held jp + one (some ip) jp) lock s' ∧ (s'.inode ip).inum = inum := by
  have others : ∀ jp, jp ≠ ip → held jp + one (some ip) jp = held jp ∧
      (lock = some jp ↔ lock = some jp) := by
    intro jp different
    rw [one_some_other different, Int.add_zero]
    exact ⟨rfl, Iff.rfl⟩
  have refHere := visits.ref ip
  have more := one_some_self ip
  rcases got with ⟨inUse, isInum, rfl⟩ | ⟨_, unused, rfl⟩
  · refine ⟨visits.change ?_ others (visits.inum ip) (fun _ => visits.copies ip inUse)
      (visits.locked ip), ?_⟩
    · dsimp only
      omega
    · rw [withInode_inode, update_self]
      exact isInum
  · have free : (s₀.inode ip).ref = 0 ∧ held ip = 0 := by
      have first := quiet.nonneg ip
      have second := nonneg ip
      omega
    refine ⟨visits.change ?_ others (fun inUse => ?_) (fun _ valid => ?_) (visits.locked ip), ?_⟩
    · dsimp only
      omega
    · omega
    · cases valid
    · rw [withInode_inode, update_self]

/-- `iget` does not reuse a slot that is referred to. -/
theorem Got.inum_eq {jp : Slot} (got : Got inum jp s s') (inUse : 0 < (s.inode ip).ref) :
    (s'.inode ip).inum = (s.inode ip).inum := by
  rcases got with ⟨_, _, rfl⟩ | ⟨_, unused, rfl⟩
  · by_cases same : ip = jp
    · rw [same, withInode_inode, update_self]
    · rw [withInode_inode, update_of_ne same]
  · rw [withInode_inode, update_of_ne]
    rintro rfl
    omega

theorem Visits.consistent (visits : Visits s₀ held lock s) (tree : Tree s₀) : Consistent s := by
  have consistent := tree.consistent
  constructor
  · rw [visits.sb, visits.disksize]
    exact consistent.disksize
  · rw [visits.sb, visits.disk]
    exact consistent.loaded
  · rw [visits.sb, visits.disk]
    exact consistent.sound
  · rw [visits.sb, visits.disk]
    exact consistent.mapped

theorem Visits.content (visits : Visits s₀ held lock s) (inum : Nat) :
    content s inum = content s₀ inum := by
  unfold Fs.content
  rw [visits.sb, visits.disk]

theorem Visits.usable (visits : Visits s₀ held none s) (tree : Tree s₀) (node : Node s₀ s ip)
    (inUse : 0 < (s.inode ip).ref) : Usable s ip := by
  refine ⟨visits.consistent tree, ?_, inUse, ?_, fun valid => ?_⟩
  · rw [visits.sb, visits.disk]
    exact node.live
  · rw [visits.locked]
    rfl
  · rw [visits.copies ip inUse valid, visits.sb, visits.disk]

theorem Visits.ilock (visits : Visits s₀ held none s) (tree : Tree s₀) (node : Node s₀ s ip)
    (inUse : 0 < (s.inode ip).ref)
    (holds : ∀ s', Visits s₀ held (some ip) s' → (s'.inode ip).inum = (s.inode ip).inum →
      Loaded s' ip → post () s') : Meets (ilock ip) s post stops := by
  have usable := visits.usable tree node inUse
  have copy := usable.loaded.copy
  unfold State.afterIlock at copy
  rw [withInode_inode, update_self, withInode_sb, withInode_disk, visits.sb, visits.disk] at copy
  apply usable.ilock
  apply holds _ _ _ usable.loaded
  · unfold State.afterIlock
    rw [visits.sb, visits.disk]
    refine visits.change (visits.ref ip) (fun jp different => ⟨rfl, ?_⟩) (visits.inum ip)
      (fun _ _ => copy) (by simp)
    simpa using different.symm
  · unfold State.afterIlock
    rw [withInode_inode, update_self]

theorem Visits.iunlock (visits : Visits s₀ held (some ip) s) (inUse : 0 < (s.inode ip).ref)
    (holds : ∀ s', Visits s₀ held none s' → (∀ jp, (s'.inode jp).inum = (s.inode jp).inum) →
      post () s') : Meets (iunlock ip) s post stops := by
  apply iunlock_meets
  · rw [visits.locked, decide_eq_true rfl]
  · exact inUse
  apply holds
  · refine visits.change (visits.ref ip) (fun jp different => ⟨rfl, ?_⟩) (visits.inum ip)
      (visits.copies ip) rfl
    simpa using different.symm
  · intro jp
    unfold State.afterIunlock
    by_cases same : jp = ip
    · rw [same, withInode_inode, update_self]
    · rw [withInode_inode, update_of_ne same]

/-- `iput` of a reference that is held: the inode is not freed. -/
theorem Visits.iput (visits : Visits s₀ held none s) (node : Node s₀ s ip)
    (holding : 0 < held ip)
    (nonneg : 0 ≤ (s₀.inode ip).ref)
    (holds : ∀ s', Visits s₀ (fun jp => held jp - one (some ip) jp) none s' →
      (∀ jp, (s'.inode jp).inum = (s.inode jp).inum) → post () s') :
    Meets (iput ip) s post stops := by
  have refHere := visits.ref ip
  apply iput_drops
  · rw [visits.locked]
    rfl
  · intro valid unlinked last
    rcases node.kept with inUse | linked
    · omega
    · rw [visits.copies ip (by omega) valid] at unlinked
      exact linked unlinked
  · apply holds
    · refine visits.change ?_ (fun jp different => ?_) (visits.inum ip) (fun _ => ?_)
        (visits.locked ip)
      · rw [one_some_self]
        dsimp only
        omega
      · rw [one_some_other different, Int.sub_zero]
        exact ⟨rfl, Iff.rfl⟩
      · exact visits.copies ip (by omega)
    · intro jp
      by_cases same : jp = ip
      · rw [same, withInode_inode, update_self]
      · rw [withInode_inode, update_of_ne same]

theorem Visits.iunlockput (visits : Visits s₀ held (some ip) s) (node : Node s₀ s ip)
    (holding : 0 < held ip) (nonneg : 0 ≤ (s₀.inode ip).ref)
    (holds : ∀ s', Visits s₀ (fun jp => held jp - one (some ip) jp) none s' →
      (∀ jp, (s'.inode jp).inum = (s.inode jp).inum) → post () s') :
    Meets (iunlockput ip) s post stops := by
  have refHere := visits.ref ip
  rw [Fs.iunlockput, Meets, meets_bind]
  apply visits.iunlock (by omega)
  intro s' unlocked same
  apply unlocked.iput (node.congr (same ip)) holding nonneg
  intro s'' dropped sameAgain
  exact holds s'' dropped fun jp => (sameAgain jp).trans (same jp)

end Visits

/-! ## `namex` -/

section Namex

variable {s₀ s : State} {ip : Slot}

/-- With one reference held, the cache has room for another inode. -/
theorem Visits.room {held : Slot → Int} {lock : Option Slot} (visits : Visits s₀ held lock s)
    (room : Room s₀) (few : ∀ jp, held jp = 0 ∨ jp = ip) : ∃ jp, (s.inode jp).ref = 0 := by
  obtain ⟨first, second, different, firstFree, secondFree⟩ := room
  rcases few first with free | isIp
  · exact ⟨first, by rw [visits.ref, firstFree, free, Int.add_zero]⟩
  · rcases few second with free | also
    · exact ⟨second, by rw [visits.ref, secondFree, free, Int.add_zero]⟩
    · exact absurd (isIp.trans also.symm) different

theorem Visits.isDirectory {held : Slot → Int} {lock : Option Slot} (visits : Visits s₀ held lock s)
    (tree : Tree s₀) (loaded : Loaded s ip) (type : (s.inode ip).din.type = tDir) :
    IsDirectory s ip := by
  refine ⟨visits.consistent tree, loaded, type, ?_⟩
  have live := loaded.live
  rw [loaded.copy] at type
  rw [visits.sb, visits.disk] at live type
  rw [visits.content]
  exact (tree.dirs _ live type).aligned

/-- The result of `namex` in a run from `s₀`. -/
structure Reached (s₀ : State) (expected : Option (Nat × List UInt8))
    (result : Option (Slot × List UInt8)) (s : State) : Prop where
  visits : Visits s₀ (found result) none s
  node : ∀ entry, result = some entry → Node s₀ s entry.1
  isResult : (result.map fun entry => ((s.inode entry.1).inum, entry.2)) = expected

theorem namexLoop_meets (parent : Bool) (tree : Tree s₀) (quiet : Quiet s₀) :
    ∀ (turns : Nat) (ip : Slot) (name path : List UInt8) (s : State), path.length < turns →
      Visits s₀ (one (some ip)) none s → Node s₀ s ip →
      Meets (namexLoop parent turns ip name path) s
        (Reached s₀ (target parent s₀ (s.inode ip).inum name (components path)))
        fun stop => stop = noInodes ∧ ¬ Room s₀ := by
  intro turns
  induction turns with
  | zero =>
    intro ip name path s short
    exact absurd short (Nat.not_lt_zero _)
  | succ turns ih =>
    intro ip name path s short visits node
    have nonneg := quiet.nonneg ip
    have holding : 0 < one (some ip) ip := by
      rw [one_some_self]
      decide
    have inUse : 0 < (s.inode ip).ref := by
      have refHere := visits.ref ip
      omega
    have gone : ∀ {s'}, Visits s₀ (fun jp => one (some ip) jp - one (some ip) jp) none s' →
        Reached s₀ none none s' := fun dropped =>
      ⟨dropped.congr fun jp => (Int.sub_self _).symm, by simp, rfl⟩
    rw [namexLoop, Meets]
    rcases skipelem_cases path with ⟨atEnd, noNames⟩ | ⟨first, rest, isSkip, names, shorter, last⟩
    · rw [atEnd, noNames, target]
      cases parent with
      | true =>
        simp only [if_true]
        rw [meets_bind]
        apply visits.iput node holding nonneg
        intro s' dropped _
        exact gone dropped
      | false =>
        refine ⟨visits, fun entry isEntry => ?_, rfl⟩
        rw [← Option.some.inj isEntry]
        exact node
    · rw [isSkip, names, target]
      rw [meets_bind]
      apply visits.ilock tree node inUse
      intro s₁ locked sameInum loaded
      have node₁ : Node s₀ s₁ ip := node.congr sameInum
      have inUse₁ : 0 < (s₁.inode ip).ref := by
        rw [locked.ref, ← visits.ref]
        exact inUse
      have isType : (s₁.inode ip).din.type = (dinodeAt s₀.sb s₀.disk (s.inode ip).inum).type := by
        rw [loaded.copy, locked.sb, locked.disk, sameInum]
      rw [meets_bind, meets_get, isType]
      by_cases isDir : (dinodeAt s₀.sb s₀.disk (s.inode ip).inum).type = tDir
      · rw [if_neg (not_not.mpr isDir), if_pos isDir]
        by_cases done : parent = true ∧ components rest = []
        · rw [if_pos ⟨done.1, last.mpr done.2⟩, if_pos done, meets_bind]
          apply locked.iunlock inUse₁
          intro s₂ unlocked same
          refine ⟨unlocked, fun entry isEntry => ?_, ?_⟩
          · rw [← Option.some.inj isEntry]
            exact node₁.congr (same ip)
          · rw [Option.map_some, same, sameInum]
        · rw [if_neg fun both => done ⟨both.1, last.mp both.2⟩, if_neg done, meets_bind]
          apply (dirlookup_meets (locked.isDirectory tree loaded (isType.trans isDir)) first).imp
          · intro result s₂ looked
            cases looked with
            | absent noEntry =>
              rw [locked.content, sameInum] at noEntry
              rw [noEntry]
              rw [meets_bind]
              apply locked.iunlockput node₁ holding nonneg
              intro s₃ dropped _
              exact gone dropped
            | @present k de jp _ isEntry isMatch ran =>
              have got := got_of_run ran
              obtain ⟨both, isInum⟩ := locked.got got quiet (one_nonneg (some ip))
              rw [locked.content, sameInum] at isEntry
              have isFind := (tree.dirs _ node.live isDir).find_eq isEntry isMatch
              obtain ⟨nextLive, nextLinked⟩ := tree.closed _ _ _ node.live isDir isFind
              rw [isFind, Option.bind_some]
              rw [meets_bind]
              have node₂ : Node s₀ s₂ ip := node₁.congr (got.inum_eq inUse₁)
              have more := one_nonneg (some jp) ip
              apply both.iunlockput node₂ (by omega) nonneg
              intro s₃ dropped same
              have next : Visits s₀ (one (some jp)) none s₃ := dropped.congr fun kp => by omega
              have nextNode : Node s₀ s₃ jp := by
                constructor
                · rw [same, isInum]
                  exact nextLive
                · rw [same, isInum]
                  exact Or.inr nextLinked
              have further := ih jp first rest s₃ (by omega) next nextNode
              rwa [same, isInum] at further
          · rintro stop ⟨de, _, _, ran⟩
            obtain ⟨isStop, full⟩ := (iget_meets s₁ de.inum).of_stop ran
            refine ⟨isStop, fun room => ?_⟩
            have few : ∀ jp, one (some ip) jp = 0 ∨ jp = ip := by
              intro jp
              by_cases same : jp = ip
              · exact Or.inr same
              · exact Or.inl (one_some_other same)
            obtain ⟨jp, free⟩ := locked.room room few
            exact full jp free
      · rw [if_pos isDir, if_neg isDir, meets_bind]
        apply locked.iunlockput node₁ holding nonneg
        intro s₂ dropped _
        exact gone dropped

/-- `namex` from the root or from the current directory. -/
theorem namex_meets (parent : Bool) (tree : Tree s₀) (quiet : Quiet s₀) {cwd : Slot}
    (inUse : 0 < (s₀.inode cwd).ref)
    (live : Live s₀.sb (dinodeAt s₀.sb s₀.disk) (s₀.inode cwd).inum) (path : List UInt8) :
    Meets (namex cwd path parent) s₀
      (Reached s₀ (target parent s₀ (startOf s₀ cwd path) [] (components path)))
      fun stop => stop = noInodes ∧ ¬ Room s₀ := by
  unfold namex startOf
  by_cases absolute : path.headD 0 = slash
  · rw [if_pos absolute, if_pos absolute, Meets, meets_bind]
    apply (iget_meets s₀ rootIno).imp
    · intro ip s got
      obtain ⟨visits, isInum⟩ := quiet.visits.got got quiet fun _ => le_refl _
      have node : Node s₀ s ip := by
        constructor
        · rw [isInum]
          exact tree.root.1
        · rw [isInum]
          exact Or.inr tree.root.2
      have loop := namexLoop_meets parent tree quiet (path.length + 1) ip [] path s
        (Nat.lt_succ_self _) (visits.congr fun jp => (Int.zero_add _).symm) node
      rwa [isInum] at loop
    · rintro stop ⟨isStop, full⟩
      refine ⟨isStop, fun room => ?_⟩
      obtain ⟨ip, _, _, free, _⟩ := room
      exact full ip free
  · rw [if_neg absolute, if_neg absolute, Meets, meets_bind]
    have got : Got (s₀.inode cwd).inum cwd s₀
        (s₀.withInode cwd { s₀.inode cwd with ref := (s₀.inode cwd).ref + 1 }) :=
      Or.inl ⟨inUse, rfl, rfl⟩
    obtain ⟨visits, isInum⟩ := quiet.visits.got got quiet fun _ => le_refl _
    have node : Node s₀ (s₀.withInode cwd { s₀.inode cwd with ref := (s₀.inode cwd).ref + 1 })
        cwd := by
      constructor
      · rw [isInum]
        exact live
      · exact Or.inl inUse
    have loop := namexLoop_meets parent tree quiet (path.length + 1) cwd [] path _
      (Nat.lt_succ_self _) (visits.congr fun jp => (Int.zero_add _).symm) node
    rw [isInum] at loop
    exact loop

end Namex

def lookupPath (s : State) (cwd : Slot) (path : List UInt8) : Option Nat :=
  resolve s (startOf s cwd path) (components path)

/-- `namei` holds one reference, to the inode of the path. -/
theorem namei_meets {s : State} {cwd : Slot} (tree : Tree s) (quiet : Quiet s)
    (inUse : 0 < (s.inode cwd).ref) (live : Live s.sb (dinodeAt s.sb s.disk) (s.inode cwd).inum)
    (path : List UInt8) :
    Meets (namei cwd path) s
      (fun result s' => Visits s (one result) none s' ∧ (∀ ip, result = some ip → Node s s' ip) ∧
        (result.map fun ip => (s'.inode ip).inum) = lookupPath s cwd path)
      (fun stop => stop = noInodes ∧ ¬ Room s) := by
  rw [namei, Meets, meets_bind]
  apply (namex_meets false tree quiet inUse live path).mono
  intro result s' reached
  refine ⟨reached.visits, fun ip isIp => ?_, ?_⟩
  · obtain ⟨entry, isEntry, rfl⟩ := Option.map_eq_some_iff.mp isIp
    exact reached.node entry isEntry
  · rw [lookupPath, ← target_false s _ _ [], ← reached.isResult, Option.map_map, Option.map_map]
    rfl

/-- Writing to a file that is no directory leaves the tree. -/
theorem Tree.wrote {s s' : State} {ip : Slot} {size : Nat} {bytes : Nat → UInt8} (tree : Tree s)
    (loaded : Loaded s ip) (notDir : (s.inode ip).din.type ≠ tDir)
    (wrote : Wrote ip size bytes s s') : Tree s' := by
  have same : ∀ inum < s.sb.slots,
      (dinodeAt s'.sb s'.disk inum).type = (dinodeAt s.sb s.disk inum).type ∧
        (dinodeAt s'.sb s'.disk inum).nlink = (dinodeAt s.sb s.disk inum).nlink := by
    intro inum inTable
    by_cases isIp : inum = (s.inode ip).inum
    · rw [isIp, wrote.self, ← loaded.copy]
      exact ⟨rfl, rfl⟩
    · rw [wrote.table inum inTable isIp]
      exact ⟨rfl, rfl⟩
  have live : ∀ inum, Live s'.sb (dinodeAt s'.sb s'.disk) inum ↔
      Live s.sb (dinodeAt s.sb s.disk) inum := by
    intro inum
    have slots : s'.sb.slots = s.sb.slots := by rw [wrote.sb]
    unfold Live
    rw [slots]
    refine and_congr_right fun inTable => ?_
    rw [(same inum inTable).1]
  have linked : ∀ inum, Live s.sb (dinodeAt s.sb s.disk) inum ∧
      (dinodeAt s.sb s.disk inum).nlink ≠ 0 → Live s'.sb (dinodeAt s'.sb s'.disk) inum ∧
        (dinodeAt s'.sb s'.disk inum).nlink ≠ 0 := by
    rintro inum ⟨isLive, isLinked⟩
    rw [(same inum isLive.1).2]
    exact ⟨(live inum).mpr isLive, isLinked⟩
  have directory : ∀ inum, Live s'.sb (dinodeAt s'.sb s'.disk) inum →
      (dinodeAt s'.sb s'.disk inum).type = tDir → Live s.sb (dinodeAt s.sb s.disk) inum ∧
        (dinodeAt s.sb s.disk inum).type = tDir ∧ content s' inum = content s inum := by
    intro inum isLive isDir
    rw [live] at isLive
    rw [(same inum isLive.1).1] at isDir
    refine ⟨isLive, isDir, wrote.content_other ?_ tree.consistent isLive⟩
    rintro rfl
    rw [← loaded.copy] at isDir
    exact notDir isDir
  refine ⟨wrote.consistent, linked _ tree.root, fun inum isLive isDir => ?_,
    fun inum name next isLive isDir isFind => ?_⟩
  · obtain ⟨before, wasDir, sameContent⟩ := directory inum isLive isDir
    rw [sameContent]
    exact tree.dirs inum before wasDir
  · obtain ⟨before, wasDir, sameContent⟩ := directory inum isLive isDir
    rw [sameContent] at isFind
    exact linked _ (tree.closed inum name next before wasDir isFind)

/-! ## A small tree -/

def linkedFile : Dinode := { emptyFile with nlink := 1 }

def smallNodes : State :=
  { smallDirectory with disk := putDinode small smallDirectory.disk 2 linkedFile }

theorem smallNodes_table {inum : Nat} (inTable : inum < small.slots) :
    dinodeAt small smallNodes.disk inum =
      if inum = 2 then linkedFile else if inum = 1 then emptyDir else Dinode.zero := by
  by_cases two : inum = 2
  · rw [if_pos two, two]
    exact dinodeAt_putDinode _ _ _ _
  · rw [if_neg two]
    refine (dinodeAt_putDinode_other _ _ _ two).trans ?_
    by_cases one : inum = 1
    · rw [if_pos one, one]
      exact dinodeAt_putDinode _ _ _ _
    · rw [if_neg one]
      refine (dinodeAt_putDinode_other _ _ _ one).trans ?_
      exact (smallState_table inTable).trans (if_neg one)

theorem smallNodes_isDirectory : IsDirectory smallNodes firstSlot := by
  have table : dinodeAt small smallNodes.disk 1 = emptyDir := smallNodes_table (by decide)
  have unused : (dinodeAt small smallDirectory.disk 2).type = 0 := by
    refine (congrArg Dinode.type (dinodeAt_putDinode_other _ _ _ (by decide))).trans ?_
    exact congrArg Dinode.type ((smallState_table (by decide)).trans (if_neg (by decide)))
  have loaded : Loaded smallNodes firstSlot := by
    constructor
    · refine ⟨by decide, fun free => ?_⟩
      exact absurd ((congrArg Dinode.type table).symm.trans free) (by decide)
    · exact table.symm
  refine ⟨smallDirectory_consistent.putBare (show 2 < small.slots by decide) ?_
    (show linkedFile.addrs = _ from rfl) rfl rfl rfl rfl, loaded, rfl, ?_⟩
  · intro place isTwo
    apply own_none_of_type
    rw [isTwo]
    exact unused
  · rw [loaded.content_length]
    rfl

/-- The disk of a state, with inode 1 as current directory and nothing else in the
cache. -/
def State.atRoot (s : State) : State :=
  { s with
    inode := fun ip =>
      { inum := 1, ref := if ip = firstSlot then 1 else 0, locked := false, valid := false,
        din := Dinode.zero } }

theorem Tree.withCache {s : State} (tree : Tree s) (inode : Slot → Inode) :
    Tree { s with inode := inode } :=
  ⟨⟨tree.consistent.disksize, tree.consistent.loaded, tree.consistent.sound,
    tree.consistent.mapped⟩, tree.root, tree.dirs, tree.closed⟩

theorem State.atRoot_quiet (s : State) : Quiet s.atRoot ∧ Room s.atRoot := by
  refine ⟨⟨fun ip => ?_, fun ip _ valid => ?_, fun ip => rfl⟩, ⟨1, by decide⟩, ⟨2, by decide⟩, ?_⟩
  · unfold State.atRoot
    dsimp only
    split <;> decide
  · cases valid
  · exact ⟨by decide, rfl, rfl⟩

theorem smallTree : ∃ s, Tree s ∧ Quiet s ∧ Room s ∧ 0 < (s.inode firstSlot).ref ∧
    (s.inode firstSlot).inum = 1 ∧ (dinodeAt s.sb s.disk 1).type = tDir ∧
      find (content s 1) [102] = some 2 ∧ dinodeAt s.sb s.disk 2 = linkedFile ∧
        freeBlocks s.sb s.disk = 5 := by
  have links : (run (dirlink firstSlot [102] 2) smallNodes).toOption.map (fun result =>
      (result.1, freeBlocks result.2.sb result.2.disk)) = some (true, 5) := by
    decide +kernel
  cases ran : run (dirlink firstSlot [102] 2) smallNodes with
  | error stop =>
    rw [ran] at links
    cases links
  | ok result =>
    obtain ⟨linked, s₁⟩ := result
    rw [ran] at links
    obtain ⟨rfl, free⟩ := Prod.mk.inj (Option.some.inj links)
    have empty : content smallNodes (smallNodes.inode firstSlot).inum = [] := by
      apply List.eq_nil_of_length_eq_zero
      rfl
    cases (dirlink_meets smallNodes_isDirectory [102] 2).of_run ran with
    | @made k _ bytes absent inside noEntry wrote isContent =>
      have isTable : ∀ inum < small.slots, inum ≠ 1 → dinodeAt s₁.sb s₁.disk inum =
          if inum = 2 then linkedFile else Dinode.zero := by
        intro inum inTable notOne
        refine (wrote.table inum inTable notOne).trans ?_
        rw [← if_neg (c := inum = 1) (t := emptyDir) (e := Dinode.zero) notOne]
        exact smallNodes_table inTable
      have isTwo : dinodeAt s₁.sb s₁.disk 2 = linkedFile := isTable 2 (by decide) (by decide)
      have isOne : (dinodeAt s₁.sb s₁.disk 1).type = tDir ∧
          (dinodeAt s₁.sb s₁.disk 1).nlink ≠ 0 :=
        ⟨congrArg Dinode.type wrote.self, fun zero => absurd (show (1 : BitVec 16) = 0 from
          (congrArg Dinode.nlink wrote.self).symm.trans zero) (by decide)⟩
      have slots : s₁.sb.slots = small.slots := congrArg Superblock.slots wrote.sb
      have liveOne : Live s₁.sb (dinodeAt s₁.sb s₁.disk) 1 :=
        ⟨by rw [slots]; decide, by rw [isOne.1]; decide⟩
      have liveTwo : Live s₁.sb (dinodeAt s₁.sb s₁.disk) 2 :=
        ⟨by rw [slots]; decide, by rw [isTwo]; decide⟩
      have onlyDir : ∀ inum, Live s₁.sb (dinodeAt s₁.sb s₁.disk) inum →
          (dinodeAt s₁.sb s₁.disk inum).type = tDir → inum = 1 := by
        intro inum live isDir
        by_contra notOne
        rw [isTable inum (slots ▸ live.1) notOne] at isDir
        split at isDir <;> exact absurd isDir (by decide)
      rw [empty] at absent inside noEntry isContent
      have formedEmpty : WellFormed [] := by
        refine ⟨rfl, fun left right key first second holds => ?_⟩
        simp [Holds, mapOf, entriesOf] at holds
      have entry : Dirent.decode (Dirent.encode { inum := 2, name := direntName [102] }) =
          { inum := 2, name := direntName [102] } := by decide
      obtain ⟨formed, finds⟩ := formedEmpty.link inside (encode_direntName_length 2 [102]) entry
        (shortName_direntName [102]) absent noEntry
      have isFind := finds (by decide)
      rw [← isContent] at formed
      refine ⟨s₁.atRoot, ⟨?_, ⟨liveOne, isOne.2⟩, fun inum live isDir => ?_,
        fun inum name next live isDir found => ?_⟩, s₁.atRoot_quiet.1, s₁.atRoot_quiet.2,
        Int.one_pos, rfl, isOne.1, ?_, isTwo, free⟩
      · exact ⟨wrote.consistent.disksize, wrote.consistent.loaded, wrote.consistent.sound,
          wrote.consistent.mapped⟩
      · obtain rfl := onlyDir inum live isDir
        exact formed
      · obtain rfl := onlyDir inum live isDir
        have isNext : next = 2 := by
          have same := (isFind name).symm.trans
            ((congrArg (find · name) isContent.symm).trans found)
          split at same
          · exact (Option.some.inj same).symm
          · cases same
        rw [isNext]
        exact ⟨liveTwo, by rw [show dinodeAt s₁.atRoot.sb s₁.atRoot.disk 2 = _ from isTwo]; decide⟩
      · refine (congrArg (find · [102]) isContent).trans ((isFind [102]).trans (if_pos rfl))

/-- The directory with any `bytes` in its file `f`, up to one block. -/
theorem smallTree_with {bytes : List UInt8} (short : bytes.length ≤ bSize) :
    ∃ s, Tree s ∧ Quiet s ∧ Room s ∧ 0 < (s.inode firstSlot).ref ∧
      (s.inode firstSlot).inum = 1 ∧ lookupPath s firstSlot [102] = some 2 ∧
        (dinodeAt s.sb s.disk 2).type = tFile ∧ content s 2 = bytes := by
  obtain ⟨s, tree, _, _, _, _, isDir, isFind, isFile, free⟩ := smallTree
  have opened : Loaded (s.withInode firstSlot ⟨2, 1, true, true, linkedFile⟩) firstSlot := by
    constructor
    · exact (tree.closed 1 [102] 2 tree.root.1 isDir isFind).1
    · exact isFile.symm
  have before : Tree (s.withInode firstSlot ⟨2, 1, true, true, linkedFile⟩) := tree.withCache _
  have limit : 0 + bytes.length ≤ maxFile * bSize := by
    have block : bSize ≤ maxFile * bSize := by decide
    omega
  have enough : Enough (s.withInode firstSlot ⟨2, 1, true, true, linkedFile⟩) firstSlot
      (0 + bytes.length) := by
    have few : blocksOf (max 0 (0 + bytes.length)) ≤ 1 := by
      unfold bSize at short
      unfold blocksOf bSize
      omega
    have size : linkedFile.size.toNat = 0 := rfl
    have noIndirect : indirects linkedFile = 0 := by decide
    have sameFree : freeBlocks (s.withInode firstSlot ⟨2, 1, true, true, linkedFile⟩).sb
      (s.withInode firstSlot ⟨2, 1, true, true, linkedFile⟩).disk = 5 := free
    unfold Enough Fits
    rw [sameFree, withInode_inode, update_self, size, noIndirect, required,
      if_neg (by unfold nDirect; omega), noIndirect]
    omega
  have notDevice : linkedFile.type ≠ tDev := by decide
  have notDir : linkedFile.type ≠ tDir := by decide
  obtain ⟨_, s₁, _, _, wrote⟩ := (writei_meets before.consistent opened notDevice (Nat.zero_le _)
    limit).returns fun stop full => absurd full.2 (Nat.not_lt.mpr enough)
  have after : Tree s₁ := before.wrote opened notDir wrote
  have notOne : (1 : Nat) ≠ 2 := by decide
  have sameDir : content s₁ 1 = content s 1 :=
    wrote.content_other notOne before.consistent tree.root.1
  have stillDir : (dinodeAt s₁.sb s₁.disk 1).type = tDir := by
    rw [wrote.table 1 tree.root.1.1 notOne]
    exact isDir
  have isContent := wrote.content_patch opened rfl rfl (Nat.zero_le _)
    (max_le (Nat.zero_le _) limit)
  have wasEmpty : content (s.withInode firstSlot ⟨2, 1, true, true, linkedFile⟩) 2 = [] := by
    apply List.eq_nil_of_length_eq_zero
    rw [content_length]
    exact congrArg (fun din => din.size.toNat) isFile
  refine ⟨s₁.atRoot, after.withCache _, s₁.atRoot_quiet.1, s₁.atRoot_quiet.2, Int.one_pos, rfl, ?_,
    congrArg Dinode.type wrote.self, ?_⟩
  · have names : components [102] = [[102]] := by decide
    have isDirectory : (dinodeAt s₁.atRoot.sb s₁.atRoot.disk 1).type = tDir := stillDir
    have finds : find (content s₁.atRoot 1) [102] = some 2 :=
      (congrArg (find · [102]) sameDir).trans isFind
    have start : startOf s₁.atRoot firstSlot [102] = 1 := rfl
    unfold lookupPath
    rw [start, names, resolve, if_pos isDirectory, finds]
    rfl
  · refine isContent.trans ?_
    rw [withInode_inode, update_self, wasEmpty]
    exact overwrite_end bytes

end Rexv6.Fs
