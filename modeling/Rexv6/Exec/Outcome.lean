import Rexv6.Exec.Machine
import Rexv6.Fs.Resolution
import Rexv6.Vm.UserStack

/-!
Contract: `exec` is all or nothing.

Owns: what a call of `exec` leaves behind when it succeeds and when it fails, for
every path, file, argument vector and sequence of answers of `kalloc`, what the
new program finds on its stack, and that `exec` of `Rexv6.Vm` is what a call does
to memory.

Does not own: the loader and the stack, of which `Rexv6.Vm` says what they map,
and path lookup.
-/

namespace Rexv6.Exec

open Rexv6.Foundation.Program
open Rexv6.Foundation.Tally (one one_some_self)
open Rexv6.Fs (Slot Visits Node Room noInodes lookupPath)
open Rexv6.Vm (Building Failed Inv Place strip)

section Lift

variable {α : Type} {k : State} {post : α → State → Prop} {stops : Stop → Prop}

theorem onFs_meets {task : Fs.M α} (meets : Fs.Meets task k.fs
    (fun value fs => post value { k with fs := fs }) fun stop => stops (.fs stop)) :
    Meets (onFs task) k post stops :=
  meets_embed.mpr meets

theorem onVm_meets {program : Vm.M α} (meets : Meets program k.memory
    (fun value memory => post value { k with memory := memory }) fun stop => stops (.memory stop)) :
    Meets (onVm program) k post stops :=
  meets_embed.mpr meets

end Lift

/-! ## The address space -/

def Proc.space (p : Proc) : Vm.Proc := ⟨p.pgdir, p.sz, p.kstack⟩

section Memory

variable {α : Type} {k k₀ : State}

theorem onVm_tracks (program : Vm.M α) : Tracks State.memory (onVm program) program k
    fun value result k' => value = result ∧ k'.proc = k.proc := by
  refine (tracks_embed fun _ => rfl).mono ?_
  rintro value k' ⟨result, ran, same, memory, rfl⟩
  exact ⟨result, ran, same, rfl⟩

theorem release_keeps (ip : Option Slot) : Meets (release ip) k (fun _ k' =>
    k'.memory = k.memory ∧ k'.proc = k.proc) fun _ => True := by
  cases ip with
  | none => exact ⟨rfl, rfl⟩
  | some ip =>
    rw [release, meets_bind]
    exact meets_embed.mpr (meets_true.mono fun _ _ _ => ⟨rfl, rfl⟩)

def Returned (k₀ : State) (ok : Bool) (result : Option Vm.Proc) (k : State) : Prop :=
  ok = result.isSome ∧ k.proc.space = result.getD k₀.proc.space

theorem bad_tracks (ip : Option Slot) (same : k.proc = k₀.proc) :
    Tracks State.memory (bad 0 ip) (return none : Vm.M (Option Vm.Proc)) k (Returned k₀) :=
  Tracks.skip (release_keeps ip) fun _ _ kept =>
    ⟨none, rfl, rfl, congrArg Proc.space (kept.trans same)⟩

theorem bad_tracks_freevm {pgdir : Nat} (isSome : pgdir ≠ 0) (ip : Option Slot)
    (same : k.proc = k₀.proc) : Tracks State.memory (bad pgdir ip)
      (do Vm.freevm pgdir; return none) k (Returned k₀) := by
  rw [bad, if_pos isSome]
  refine (onVm_tracks (Vm.freevm pgdir)).bind fun _ _ k₁ kept₁ => ?_
  exact Tracks.skip (release_keeps ip) fun _ _ kept =>
    ⟨none, rfl, rfl, congrArg Proc.space ((kept.trans kept₁.2).trans same)⟩

theorem switchuvm_keeps : Meets switchuvm k (fun _ k' => k'.memory = k.memory ∧ k'.proc = k.proc)
    fun _ => True := by
  rw [switchuvm, meets_bind, meets_get]
  dsimp only
  split
  · trivial
  · split
    · trivial
    · exact ⟨rfl, rfl⟩

theorem commit_tracks (pgdir sz eip esp : Nat) (path : List UInt8) :
    Tracks State.memory (commit pgdir sz eip esp path)
      (do Vm.freevm k.proc.pgdir; return some ⟨pgdir, sz, k.proc.kstack⟩) k (Returned k₀) := by
  change Tracks State.memory (do switchuvm; onVm (Vm.freevm k.proc.pgdir); return true) _
    { k with proc := { k.proc with
      pgdir := pgdir, sz := sz, tf := ⟨eip, esp⟩, name := programName path } } _
  refine Tracks.skip switchuvm_keeps fun _ k₁ isNew => ?_
  refine (onVm_tracks (Vm.freevm k.proc.pgdir)).bind fun _ _ k₂ kept => ?_
  exact ⟨_, rfl, rfl, congrArg Proc.space (kept.2.trans isNew)⟩

/-- `exec` does to memory and to the address space of the process what it does there with
the file that `readi` reads. -/
theorem load_tracks (kernel : Vm.KernelImage) (ip : Slot) (path : List UInt8)
    (argv : List (List UInt8)) :
    Tracks State.memory (load kernel ip path argv)
      (Vm.exec kernel k.proc.space (fileOf k.fs ip) argv) k (Returned k) := by
  rw [load, Tracks, meets_bind, meets_get]
  dsimp only
  unfold Vm.exec
  cases (fileOf k.fs ip).readi 0 Vm.elfhdrSize with
  | none => exact bad_tracks _ rfl
  | some elf =>
    dsimp only
    split
    · exact bad_tracks _ rfl
    · split
      · exact bad_tracks _ rfl
      · refine (onVm_tracks (Vm.setupkvm kernel)).bind ?_
        rintro pgdir _ k₁ ⟨rfl, kept₁⟩
        split
        next isNone => exact bad_tracks _ kept₁
        next isSome =>
          rw [Vm.buildImage, bind_assoc]
          refine (onVm_tracks _).bind ?_
          rintro sz _ k₂ ⟨rfl, kept₂⟩
          cases sz with
          | none => exact bad_tracks_freevm isSome _ (kept₂.trans kept₁)
          | some sz =>
            refine Tracks.skip (release_keeps (some ip)) fun _ k₃ kept₃ => ?_
            rw [bind_assoc]
            refine (onVm_tracks _).bind ?_
            rintro image _ k₄ ⟨rfl, kept₄⟩
            have same : k₄.proc = k.proc := ((kept₄.trans kept₃).trans kept₂).trans kept₁
            cases image with
            | none => exact bad_tracks_freevm isSome _ same
            | some image =>
              rw [show k.proc.space = k₄.proc.space from congrArg Proc.space same.symm]
              exact commit_tracks _ _ _ _ _

/-- `exec` fails before it has touched memory, or is `exec` there. -/
theorem exec_tracks (kernel : Vm.KernelImage) (path : List UInt8) (argv : List (List UInt8)) :
    Meets (exec kernel path argv) k (fun ok k' =>
      (ok = false ∧ k'.memory = k.memory ∧ k'.proc = k.proc) ∨ ∃ file result,
        (Vm.exec kernel k.proc.space file argv).run k.memory = .ok (result, k'.memory) ∧
          Returned k ok result k') fun _ => True := by
  rw [exec, meets_bind, beginOp, meets_modify, meets_bind, meets_get]
  refine meets_bind.mpr (meets_embed.mpr (meets_true.mono fun found fs _ => ?_))
  cases found with
  | none => exact Or.inl ⟨rfl, rfl, rfl⟩
  | some ip =>
    refine meets_bind.mpr (meets_embed.mpr (meets_true.mono fun _ fs' _ => ?_))
    exact (load_tracks kernel ip path argv).mono fun ok k' loaded => Or.inr ⟨_, loaded⟩

end Memory

/-! ## Before and after -/

/-- A process that can call `exec`: nobody is in the file system, the current
directory is in use, and every page that has been handed out is held once, by an
address space or elsewhere. -/
structure Ready (k : State) : Prop where
  tree : Fs.Tree k.fs
  quiet : Fs.Quiet k.fs
  cwd : 0 < (k.fs.inode k.proc.cwd).ref ∧
    Fs.Live k.fs.sb (Fs.dinodeAt k.fs.sb k.fs.disk) (k.fs.inode k.proc.cwd).inum
  kstack : k.proc.kstack ≠ 0
  memory : ∃ live own, Inv live k.memory own ∧ own .hand = none ∧ live k.proc.pgdir

/-- All references, locks and transactions are given back. -/
structure Released (k k' : State) : Prop where
  fs : Visits k.fs (fun _ => 0) none k'.fs
  outstanding : k'.outstanding = k.outstanding

/-- A call that has failed: the process is as before, every page has been freed as
often as it has been allocated, and no page in use has been written to. -/
structure Restored (k k' : State) : Prop extends Released k k' where
  proc : k'.proc = k.proc
  freed : ∀ page, k'.memory.allocs page + k.memory.frees page =
    k.memory.allocs page + k'.memory.frees page
  bytes : ∀ page, k.memory.allocs page = k.memory.frees page + 1 →
    k'.memory.bytes page = k.memory.bytes page

/-- The program at `path`, as `exec` finds it in state `k` and loads it into directory
`pgdir` of memory `m`: its segments reach up to `size`, and in the pages below they lie
one over the other, with zero elsewhere. What they contain is what `readi` returns for
the inode `ip` in `fs`, which for a file is its content. -/
structure Program (kernel : Vm.KernelImage) (path : List UInt8) (k : State) (fs : Fs.State)
    (ip : Slot) (elf : List UInt8) (all : List Vm.Segment) (pgdir size : Nat) (m : Vm.Machine) :
    Prop where
  held : Visits k.fs (one (some ip)) (some ip) fs
  isPath : lookupPath k.fs k.proc.cwd path = some (fs.inode ip).inum
  header : (fileOf fs ip).readi 0 Vm.elfhdrSize = some elf
  isElf : elf.length = Vm.elfhdrSize ∧ Vm.field elf 0 4 = Vm.elfMagic
  segments : all = Vm.segments (fileOf fs ip) (Vm.field elf 44 2) (Vm.field elf 28 4)
  inside : ∀ segment ∈ all, segment.vaddr + segment.filesz ≤ size
  content : (fs.inode ip).din.type ≠ Fs.tDev → ∀ segment ∈ all, ∀ a, segment.Covers a →
    segment.byteAt (fileOf fs ip) a =
      (Fs.content k.fs (fs.inode ip).inum)[segment.off + (a - segment.vaddr)]?
  flags : ∀ v < Vm.pagesOf size, (m.view pgdir v).map Prod.snd = some Vm.newPage.2
  bytes : ∀ v < Vm.pagesOf size, ∀ o < Vm.pgSize, (m.view pgdir v).map (fun page => page.1 o) =
    Vm.overlay (fileOf fs ip) all (fun _ => some 0) (v * Vm.pgSize + o)
  kernelPart : ∀ v < Vm.addressPages, Vm.userPages ≤ v →
    m.present pgdir v = Vm.kmapEntry (Vm.kmap kernel) v

/-- A call that has succeeded: the process has the new image, with its stack in the last
of two more pages, in pages that were free, its old pages are free, and all other pages
in use are as before. -/
structure Installed (kernel : Vm.KernelImage) (path : List UInt8) (argv : List (List UInt8))
    (k k' : State) : Prop extends Released k k' where
  proc : k'.proc = { k.proc with
    pgdir := k'.proc.pgdir, sz := k'.proc.sz, tf := k'.proc.tf, name := programName path }
  image : ∃ fs ip elf all size, Program kernel path k fs ip elf all k'.proc.pgdir size k'.memory ∧
    k'.proc.tf.eip = Vm.field elf 24 4 ∧ k'.proc.sz = Vm.pgRoundUp size + 2 * Vm.pgSize
  stack : Vm.Arguments k'.memory k'.proc.pgdir k'.proc.sz k'.proc.tf.esp argv
  sized : ∀ v < Vm.userPages, k'.memory.mapped k'.proc.pgdir v ≠ none ↔ v < Vm.pagesOf k'.proc.sz
  fresh : ∀ page, k'.memory.Uses k'.proc.pgdir page → k.memory.allocs page = k.memory.frees page
  freed : ∀ page, k.memory.Uses k.proc.pgdir page → k'.memory.allocs page = k'.memory.frees page
  others : ∀ page, k.memory.allocs page = k.memory.frees page + 1 →
    ¬ k.memory.Uses k.proc.pgdir page → k'.memory.allocs page = k'.memory.frees page + 1 ∧
      k'.memory.bytes page = k.memory.bytes page

/-! ## The file of a program -/

section File

variable {fs : Fs.State} {ip : Slot}

/-- The file that `exec` reads is what `readi` returns, without any change. -/
theorem fileOf_run (consistent : Fs.Consistent fs)
    (loaded : Fs.Loaded fs ip) (off : Nat) {n : Nat} (small : n < 2 ^ 32) :
    ∃ result, Fs.run (Fs.readi ip off n) fs = .ok (result, fs) ∧
      (fileOf fs ip).readi off n = result.map (List.take n) := by
  have unchanged : Fs.Meets (Fs.readi ip off n) fs (fun _ fs' => fs' = fs) fun _ => False := by
    by_cases device : (fs.inode ip).din.type = Fs.tDev
    · rw [Fs.readi, Fs.Meets, Foundation.Resumption.meets_bind, Foundation.Resumption.meets_get]
      rw [if_pos device]
      exact rfl
    · by_cases inside : off ≤ (fs.inode ip).din.size.toNat ∧ off + n < 2 ^ 32
      · exact (Fs.readi_meets consistent loaded device inside.1 inside.2).mono
          fun _ _ read => read.1
      · have refused : (fs.inode ip).din.size.toNat < off ∨ 2 ^ 32 ≤ off + n := by omega
        exact Foundation.Resumption.meets_of_run (Fs.readi_refuses device small refused) rfl
  obtain ⟨result, fs', ran, rfl⟩ := unchanged.returns fun _ never => never
  have isRun : Fs.run (Fs.readi ip off n) fs' = .ok (result, fs') := ran
  refine ⟨result, isRun, ?_⟩
  unfold fileOf
  dsimp only
  rw [isRun]

theorem fileOf_content (consistent : Fs.Consistent fs) (loaded : Fs.Loaded fs ip)
    (notDevice : (fs.inode ip).din.type ≠ Fs.tDev) {off n : Nat} (small : n < 2 ^ 32) :
    (fileOf fs ip).readi off n =
      if off ≤ (Fs.content fs (fs.inode ip).inum).length ∧ off + n < 2 ^ 32 then
        some (((Fs.content fs (fs.inode ip).inum).drop off).take n)
      else none := by
  have size : (Fs.content fs (fs.inode ip).inum).length = (fs.inode ip).din.size.toNat := by
    rw [Fs.content_length, loaded.copy]
  obtain ⟨result, ran, isRead⟩ := fileOf_run consistent loaded off small
  rw [isRead, size]
  by_cases inside : off ≤ (fs.inode ip).din.size.toNat ∧ off + n < 2 ^ 32
  · have read := (Fs.readi_meets consistent loaded notDevice inside.1 inside.2).of_run ran
    rw [if_pos inside, read.2, Option.map_some, List.take_take, min_self]
  · have outside : (fs.inode ip).din.size.toNat < off ∨ 2 ^ 32 ≤ off + n := by omega
    have refused := Fs.readi_refuses notDevice small outside
    rw [if_neg inside, (Prod.mk.inj (Except.ok.inj (ran.symm.trans refused))).1]
    rfl

/-- What `loaduvm` reads of a segment is the content of the file from its offset on,
unless already the first piece of it is not in the file. -/
theorem fileOf_byteAt (consistent : Fs.Consistent fs) (loaded : Fs.Loaded fs ip)
    (notDevice : (fs.inode ip).din.type ≠ Fs.tDev) {off sz k : Nat} (inSegment : k < sz)
    (small : sz ≤ Vm.kernBase) (offSmall : off < 2 ^ 32)
    (first : (fileOf fs ip).byteAt off sz 0 ≠ none) :
    (fileOf fs ip).byteAt off sz k = (Fs.content fs (fs.inode ip).inum)[off + k]? := by
  have fileSmall : (Fs.content fs (fs.inode ip).inum).length ≤ Fs.maxFile * bSize := by
    rw [Fs.content_length]
    exact (consistent.mapped _ loaded.live).size_le
  have limit : Fs.maxFile * bSize + Vm.kernBase + Vm.pgSize < 2 ^ 32 := by decide
  have pieces : ∀ i, (if sz - i * Vm.pgSize < Vm.pgSize then sz - i * Vm.pgSize else Vm.pgSize) ≤
      Vm.pgSize := by
    intro i
    split <;> omega
  have inFile : off ≤ (Fs.content fs (fs.inode ip).inum).length := by
    by_contra outside
    apply first
    have refused : ∀ n < 2 ^ 32, (fileOf fs ip).readi off n = none := fun n below => by
      rw [fileOf_content consistent loaded notDevice below, if_neg (by omega)]
    unfold Vm.File.byteAt
    rw [Nat.zero_div, Nat.zero_mul, Nat.add_zero, Nat.mod_eq_of_lt offSmall, refused]
    · rfl
    · exact lt_of_le_of_lt (by simpa using pieces 0) (by decide)
  obtain ⟨i, o, inPage, rfl⟩ : ∃ i o, o < Vm.pgSize ∧ k = i * Vm.pgSize + o :=
    ⟨k / Vm.pgSize, k % Vm.pgSize, Nat.mod_lt _ (by decide), (Nat.div_add_mod' _ _).symm⟩
  have noWrap : (off + i * Vm.pgSize) % 2 ^ 32 = off + i * Vm.pgSize := Nat.mod_eq_of_lt (by omega)
  have piece := pieces i
  have isPiece : o < if sz - i * Vm.pgSize < Vm.pgSize then sz - i * Vm.pgSize else Vm.pgSize := by
    split <;> omega
  rw [Vm.File.byteAt_page inPage, noWrap,
    fileOf_content consistent loaded notDevice (lt_of_le_of_lt piece (by decide))]
  by_cases inside : off + i * Vm.pgSize ≤ (Fs.content fs (fs.inode ip).inum).length
  · rw [if_pos ⟨inside, by omega⟩, Option.bind_some, List.getElem?_take, if_pos isPiece,
      List.getElem?_drop, Nat.add_assoc]
  · rw [if_neg (by omega), List.getElem?_eq_none (by omega)]
    rfl

end File

/-! ## Giving back -/

section Giving

variable {k₀ k : State} {live : Nat → Prop} {own : Place → Option Nat} {pgdir : Nat}
  {stops : Stop → Prop}

/-- `exec` is under way: the process is unchanged, the inode `ip` is held and
locked, in a transaction, unless it has been given back. -/
structure Under (k₀ : State) (ip : Option Slot) (k : State) : Prop where
  fs : Visits k₀.fs (one ip) ip k.fs
  node : ∀ jp, ip = some jp → Node k₀.fs k.fs jp
  outstanding : k.outstanding = k₀.outstanding + if ip.isSome then 1 else 0
  proc : k.proc = k₀.proc

theorem Under.withMemory {ip : Option Slot} (under : Under k₀ ip k) (memory : Vm.Machine) :
    Under k₀ ip { k with memory := memory } :=
  ⟨under.fs, under.node, under.outstanding, under.proc⟩

theorem release_meets (ready : Ready k₀) {ip : Option Slot} (under : Under k₀ ip k) :
    Meets (release ip) k (fun _ k' => Under k₀ none k' ∧ k'.memory = k.memory) stops := by
  cases ip with
  | none => exact ⟨under, rfl⟩
  | some ip =>
    have holding : 0 < one (some ip) ip := by
      rw [one_some_self]
      decide
    rw [release, meets_bind]
    apply onFs_meets
    apply under.fs.iunlockput (under.node ip rfl) holding (ready.quiet.nonneg ip)
    intro fs dropped _
    have outstanding := under.outstanding
    rw [Option.isSome_some, if_pos rfl] at outstanding
    refine ⟨⟨dropped.congr fun jp => (Int.sub_self _).symm, by simp, ?_, under.proc⟩, rfl⟩
    show k.outstanding - 1 = k₀.outstanding + 0
    omega

/-- The memory while `exec` builds the directory `pgdir`, or has none. -/
def Underway (live : Nat → Prop) (own : Place → Option Nat) (m₀ : Vm.Machine) (pgdir : Nat)
    (m : Vm.Machine) : Prop :=
  (pgdir = 0 ∧ Failed live m₀ own m) ∨ (¬ live pgdir ∧ pgdir ≠ 0 ∧ ∃ sz own₁,
    Building (fun e => e = pgdir ∨ live e) pgdir m₀ own sz m own₁)

theorem Restored.of_failed (inv : Inv live k₀.memory own) (under : Under k₀ none k)
    (failed : Failed live k₀.memory own k.memory) : Restored k₀ k where
  fs := under.fs.congr fun _ => rfl
  outstanding := by
    rw [under.outstanding]
    exact Int.add_zero _
  proc := under.proc
  freed := failed.balance inv
  bytes page handedOut := by
    by_contra changed
    have idle : k₀.memory.allocs page = k₀.memory.frees page :=
      inv.balanced.idle fun place holds => changed (failed.kept holds).2
    omega

theorem bad_meets (ready : Ready k₀) (inv : Inv live k₀.memory own) (hand : own .hand = none)
    {ip : Option Slot} (under : Under k₀ ip k)
    (underway : Underway live own k₀.memory pgdir k.memory) :
    Meets (bad pgdir ip) k (fun ok k' => ok = false ∧ Restored k₀ k') stops := by
  have finish : ∀ k₁, Under k₀ ip k₁ → Failed live k₀.memory own k₁.memory →
      Meets (do release ip; return false) k₁ (fun ok k' => ok = false ∧ Restored k₀ k') stops := by
    intro k₁ under₁ failed
    rw [meets_bind]
    apply (release_meets ready under₁).mono
    rintro _ k₂ ⟨under₂, same⟩
    rw [← same] at failed
    exact ⟨rfl, Restored.of_failed inv under₂ failed⟩
  rw [bad]
  rcases underway with ⟨isNone, failed⟩ | ⟨notLive, isSome, _, own₁, building⟩
  · rw [if_neg (not_not.mpr isNone)]
    exact finish k under failed
  · rw [if_pos isSome, meets_bind]
    apply onVm_meets
    apply (Vm.freevm_abandon building.inv (Or.inl rfl) building.elsewhere building.hand hand).imp
    · intro _ m' failed
      exact finish _ (under.withMemory m') (failed.forget notLive inv fun _ _ => rfl)
    · intro stop never
      exact never.elim

end Giving

/-! ## The new image -/

section Commit

variable {live : Nat → Prop} {own own₁ : Place → Option Nat} {m₀ m : Vm.Machine} {d old sz : Nat}

/-- Directory `d` of `m` is kept and directory `old` is freed, in a call that
started with the memory `m₀`. -/
structure Replaced (m₀ m : Vm.Machine) (d old sz : Nat) (m' : Vm.Machine) : Prop where
  same : ∀ page, m.Uses d page → m'.bytes page = m.bytes page
  sized : ∀ v < Vm.userPages, m'.mapped d v ≠ none ↔ v < Vm.pagesOf sz
  fresh : ∀ page, m'.Uses d page → m₀.allocs page = m₀.frees page
  freed : ∀ page, m₀.Uses old page → m'.allocs page = m'.frees page
  others : ∀ page, m₀.allocs page = m₀.frees page + 1 → ¬ m₀.Uses old page →
    m'.allocs page = m'.frees page + 1 ∧ m'.bytes page = m₀.bytes page

/-- What was held before is still held while the new directory is built. -/
theorem kept_place (inv : Inv live m₀ own) (hand : own .hand = none) (notLive : ¬ live d)
    (building : Building (fun e => e = d ∨ live e) d m₀ own sz m own₁) {place : Place} {page : Nat}
    (holds : own place = some page) :
    ¬ place.Of d ∧ own₁ place = some page ∧ m.bytes page = m₀.bytes page := by
  have notOf : ¬ place.Of d := by
    intro ofD
    rw [inv.shape.dead notLive ofD] at holds
    cases holds
  have notHand : place ≠ .hand := by
    rintro rfl
    rw [hand] at holds
    cases holds
  exact ⟨notOf, (building.elsewhere.places notOf notHand).trans holds,
    (building.elsewhere.kept notOf notHand holds).2⟩

theorem freevm_replaces (inv : Inv live m₀ own) (hand : own .hand = none) (notLive : ¬ live d)
    (isLive : live old) (building : Building (fun e => e = d ∨ live e) d m₀ own sz m own₁) :
    Vm.Total (Vm.freevm old) m fun _ m' => Replaced m₀ m d old sz m' := by
  have different : d ≠ old := by
    rintro rfl
    exact notLive isLive
  refine (Vm.freevm_total building.inv (Or.inr isLive)).mono ?_
  rintro _ m' ⟨inv', allocs, bytes⟩
  have newLive : (d = d ∨ live d) ∧ d ≠ old := ⟨Or.inl rfl, different⟩
  constructor
  · intro page uses
    obtain ⟨place, ofD, holds⟩ := building.inv.held_of_uses (Or.inl rfl) uses
    have kept : strip old own₁ place = some page := by
      rwa [Vm.strip_not (Place.of_other ofD different).1]
    exact bytes kept
  · intro v isUser
    have notOld : ¬ (Place.user d v).Of old := different
    rw [← inv'.shape.user newLive isUser, Vm.strip_not notOld]
    exact building.sized v
  · intro page uses
    obtain ⟨place, ofD, holds⟩ := inv'.held_of_uses newLive uses
    rw [Vm.strip_not (Place.of_other ofD different).1] at holds
    apply inv.balanced.idle
    intro before holdsBefore
    obtain ⟨notOf, still, _⟩ := kept_place inv hand notLive building holdsBefore
    rw [building.inv.balanced.once still holds] at notOf
    exact notOf ofD
  · intro page uses
    obtain ⟨place, ofOld, holds⟩ := inv.held_of_uses isLive uses
    obtain ⟨_, still, _⟩ := kept_place inv hand notLive building holds
    apply inv'.balanced.idle
    intro after holdsAfter
    by_cases alsoOld : after.Of old
    · rw [Vm.strip_of alsoOld] at holdsAfter
      cases holdsAfter
    · rw [Vm.strip_not alsoOld] at holdsAfter
      rw [building.inv.balanced.once holdsAfter still] at alsoOld
      exact alsoOld ofOld
  · intro page handedOut notUsed
    by_cases held : ∃ place, own place = some page
    · obtain ⟨place, holds⟩ := held
      obtain ⟨_, still, sameBytes⟩ := kept_place inv hand notLive building holds
      have notOld : ¬ place.Of old := fun ofOld =>
        notUsed (inv.uses_of_held isLive ofOld holds)
      have after : strip old own₁ place = some page := by
        rwa [Vm.strip_not notOld]
      exact ⟨inv'.balanced.held after, (bytes after).trans sameBytes⟩
    · have idle := inv.balanced.idle fun place holds => held ⟨place, holds⟩
      omega

end Commit

/-! ## The call -/

section Call

variable {kernel : Vm.KernelImage} {path : List UInt8} {argv : List (List UInt8)} {k₀ k : State}
  {live : Nat → Prop} {own own₁ : Place → Option Nat} {stops : Stop → Prop}

def Outcome (kernel : Vm.KernelImage) (path : List UInt8) (argv : List (List UInt8)) (k : State)
    (ok : Bool) (k' : State) : Prop :=
  (ok = false ∧ Restored k k') ∨ (ok = true ∧ Installed kernel path argv k k')

def Committed (path : List UInt8) (pgdir sz : Nat) (tf : Trapframe) (k : State)
    (m' : Vm.Machine) : State :=
  { k with
    memory := m'
    proc := { k.proc with pgdir := pgdir, sz := sz, tf := tf, name := programName path } }

theorem commit_meets {pgdir sz eip esp : Nat} (ready : Ready k₀) (inv : Inv live k₀.memory own)
    (hand : own .hand = none) (isLive : live k₀.proc.pgdir) (notLive : ¬ live pgdir)
    (notZero : pgdir ≠ 0) (under : Under k₀ none k)
    (building : Building (fun e => e = pgdir ∨ live e) pgdir k₀.memory own sz k.memory own₁) :
    Meets (commit pgdir sz eip esp path) k
      (fun ok k' => ok = true ∧ ∃ m', k' = Committed path pgdir sz ⟨eip, esp⟩ k m' ∧
        Replaced k₀.memory k.memory pgdir k₀.proc.pgdir sz m') stops := by
  have old : k.proc.pgdir = k₀.proc.pgdir := congrArg Proc.pgdir under.proc
  have kstack : k.proc.kstack ≠ 0 := by
    rw [under.proc]
    exact ready.kstack
  rw [commit, meets_bind, meets_get, meets_bind, meets_modify, meets_bind, switchuvm, meets_bind,
    meets_get]
  rw [if_neg kstack, if_neg notZero, meets_pure, meets_bind, old]
  apply onVm_meets
  apply (freevm_replaces inv hand notLive isLive building).imp
  · intro _ m' replaced
    exact ⟨rfl, m', rfl, replaced⟩
  · intro stop never
    exact never.elim

theorem Program.congr {fs : Fs.State} {ip : Slot} {elf : List UInt8} {all : List Vm.Segment}
    {pgdir size : Nat} {m m' : Vm.Machine}
    (program : Program kernel path k fs ip elf all pgdir size m)
    (small : size ≤ Vm.kernBase) (views : ∀ v < Vm.addressPages,
      m'.pte pgdir v = m.pte pgdir v ∧ m'.view pgdir v = m.view pgdir v) :
    Program kernel path k fs ip elf all pgdir size m' := by
  have inSpace : ∀ {v}, v < Vm.pagesOf size → v < Vm.addressPages := fun below =>
    lt_of_lt_of_le (lt_of_lt_of_le below (Vm.pagesOf_le_userPages small)) (by decide)
  refine ⟨program.held, program.isPath, program.header, program.isElf, program.segments,
    program.inside, program.content, fun v below => ?_, fun v below => ?_,
    fun v below isKernel => ?_⟩
  · rw [(views v (inSpace below)).2]
    exact program.flags v below
  · rw [(views v (inSpace below)).2]
    exact program.bytes v below
  · rw [Vm.present_congr (views v below).1]
    exact program.kernelPart v below isKernel

/-- The image that has been built is installed, with its stack. -/
theorem installed_of_replaced {fs : Fs.State} {ip : Slot} {elf : List UInt8}
    {all : List Vm.Segment} {pgdir sz size : Nat} {tf : Trapframe} {m' : Vm.Machine}
    (under : Under k₀ none k)
    (building : Building (fun e => e = pgdir ∨ live e) pgdir k₀.memory own sz k.memory own₁)
    (program : Program kernel path k₀ fs ip elf all pgdir size k.memory)
    (isEntry : tf.eip = Vm.field elf 24 4) (isSize : sz = Vm.pgRoundUp size + 2 * Vm.pgSize)
    (programSmall : size ≤ Vm.kernBase) (arguments : Vm.Arguments k.memory pgdir sz tf.esp argv)
    (replaced : Replaced k₀.memory k.memory pgdir k₀.proc.pgdir sz m') :
    Installed kernel path argv k₀ (Committed path pgdir sz tf k m') := by
  have views : ∀ v < Vm.addressPages, m'.pte pgdir v = k.memory.pte pgdir v ∧
      m'.view pgdir v = k.memory.view pgdir v := fun v inSpace =>
    Vm.view_of_uses replaced.same inSpace
  refine ⟨⟨under.fs.congr fun _ => rfl, ?_⟩, ?_, ⟨fs, ip, elf, all, size,
    program.congr programSmall views, isEntry, isSize⟩, ?_, replaced.sized, replaced.fresh,
    replaced.freed, replaced.others⟩
  · exact under.outstanding.trans (Int.add_zero _)
  · unfold Committed
    rw [under.proc]
  · have small := building.small
    refine arguments.congr (by unfold Vm.kernBase at small; omega) (fun v inSpace => ?_) ?_
    · exact Vm.userPage_congr (views v inSpace).1
    · intro v inSpace page isPage
      have holds := building.inv.userPage_own (Or.inl rfl) inSpace isPage
      have ofNew : (Place.user pgdir v).Of pgdir := rfl
      exact replaced.same page (building.inv.uses_of_held (Or.inl rfl) ofNew holds)

/-- The image that the loader has built is the program, and the pages of the stack do not
matter. -/
theorem program_of_image (ready : Ready k) {fs : Fs.State} {ip : Slot} {elf : List UInt8}
    {all : List Vm.Segment} {d size : Nat} {m₁ m₂ m₃ : Vm.Machine}
    (held : Visits k.fs (one (some ip)) (some ip) fs)
    (isPath : lookupPath k.fs k.proc.cwd path = some (fs.inode ip).inum)
    (loaded : Fs.Loaded fs ip) (header : (fileOf fs ip).readi 0 Vm.elfhdrSize = some elf)
    (length : elf.length = Vm.elfhdrSize) (magic : Vm.field elf 0 4 = Vm.elfMagic)
    (segments : all = Vm.segments (fileOf fs ip) (Vm.field elf 44 2) (Vm.field elf 28 4))
    {start : Nat} (laid : Vm.Laid (fileOf fs ip) all (fun _ => some 0) start size
      (Vm.overlay (fileOf fs ip) all fun _ => some 0))
    (image : Vm.Image (Vm.overlay (fileOf fs ip) all fun _ => some 0) d m₁ size m₂)
    (small : size ≤ Vm.kernBase)
    (maps : ∀ v < Vm.addressPages, m₁.present d v = Vm.kmapEntry (Vm.kmap kernel) v)
    (views : ∀ v < Vm.addressPages, v < Vm.pagesOf size ∨ Vm.userPages ≤ v →
      m₃.view d v = m₂.view d v) : Program kernel path k fs ip elf all d size m₃ := by
  have inUser := Vm.pagesOf_le_userPages small
  have inSpace : ∀ {v}, v < Vm.pagesOf size → v < Vm.addressPages := fun below =>
    lt_of_lt_of_le (lt_of_lt_of_le below inUser) (by decide)
  refine ⟨held, isPath, header, ⟨length, magic⟩, segments, laid.inside, ?_, fun v below => ?_,
    fun v below => ?_, fun v below isKernel => ?_⟩
  · intro notDevice segment member a covers
    obtain ⟨low, high⟩ := covers
    have inside := laid.inside segment member
    have first := laid.inFile segment member segment.vaddr ⟨le_rfl, by omega⟩
    rw [Vm.Segment.byteAt, Nat.sub_self] at first
    rw [← held.content]
    refine fileOf_byteAt (held.consistent ready.tree) loaded notDevice (by omega)
      (by omega) ?_ first
    rw [segments] at member
    exact Vm.segments_off_lt _ _ _ member
  · rw [views v (inSpace below) (Or.inl below)]
    exact image.flags v (inSpace below) below
  · rw [views v (inSpace below) (Or.inl below)]
    exact image.bytes v (inSpace below) below
  · have same := (views v below (Or.inr isKernel)).trans (image.others v below (by omega))
    unfold Vm.Machine.view at same
    rw [← maps v below]
    simpa [Nat.not_lt.mpr isKernel, Option.map_inj_right] using same

theorem load_meets (ready : Ready k) (inv : Inv live k.memory own) (hand : own .hand = none)
    (isLive : live k.proc.pgdir) {ip : Slot} {k₁ : State} (under : Under k (some ip) k₁)
    (memory : k₁.memory = k.memory) (loaded : Fs.Loaded k₁.fs ip)
    (isInum : lookupPath k.fs k.proc.cwd path = some (k₁.fs.inode ip).inum) :
    Meets (load kernel ip path argv) k₁ (Outcome kernel path argv k)
      fun stop => stop = .memory .fault := by
  have fails : ∀ {k₂ pgdir} {jp : Option Slot}, Under k jp k₂ →
      Underway live own k.memory pgdir k₂.memory →
      Meets (bad pgdir jp) k₂ (Outcome kernel path argv k) fun stop => stop = .memory .fault :=
    fun under₂ underway =>
      (bad_meets ready inv hand under₂ underway).mono fun _ _ restored => Or.inl restored
  have unchanged : Underway live own k.memory 0 k₁.memory := by
    rw [memory]
    exact Or.inl ⟨rfl, inv, fun _ => ⟨rfl, rfl⟩⟩
  rw [load, meets_bind, meets_get]
  dsimp only
  cases isElf : (fileOf k₁.fs ip).readi 0 Vm.elfhdrSize with
  | none => exact fails under unchanged
  | some elf =>
    dsimp only
    by_cases short : elf.length ≠ Vm.elfhdrSize
    · rw [if_pos short]
      exact fails under unchanged
    rw [if_neg short]
    by_cases notElf : Vm.field elf 0 4 ≠ Vm.elfMagic
    · rw [if_pos notElf]
      exact fails under unchanged
    rw [if_neg notElf, meets_bind]
    apply onVm_meets
    rw [memory]
    apply ((Vm.setupkvm_total kernel inv hand).and (Vm.setupkvm_maps kernel _)).imp _
      fun _ never => never.elim
    rintro d m₁ ⟨⟨made, _⟩, maps⟩
    rcases made with ⟨rfl, failed⟩ | ⟨own₁, created, noUser⟩
    · exact fails (under.withMemory m₁) (Or.inl ⟨rfl, failed⟩)
    rw [if_neg created.notZero, meets_bind]
    apply onVm_meets
    apply (Vm.loadProgram_total (Or.inl rfl) (fileOf k₁.fs ip) _ _ 0 m₁ own₁ _
      (created.building noUser) (Vm.Image.empty d m₁)).imp _ fun _ never => never.elim
    rintro result m₂ ⟨own₂, sz, content, _, building₂, image, _, isSize⟩
    cases result with
    | none =>
      exact fails (under.withMemory m₂)
        (Or.inr ⟨created.notLive, created.notZero, sz, own₂, building₂⟩)
    | some size =>
      obtain ⟨rfl, laid, _⟩ := isSize size rfl
      obtain rfl := laid.bytes
      rw [meets_bind]
      apply (release_meets ready (under.withMemory m₂)).mono
      rintro _ k₂ ⟨under₂, memory₂⟩
      rw [meets_bind]
      apply onVm_meets
      rw [memory₂]
      apply (Vm.stackImage_meets (Or.inl rfl) argv building₂).imp
      · rintro result m₃ ⟨own₃, reached, building₃, isResult⟩
        cases result with
        | none =>
          exact fails (under₂.withMemory m₃)
            (Or.inr ⟨created.notLive, created.notZero, reached, own₃, building₃⟩)
        | some image =>
          obtain ⟨sz, esp⟩ := image
          obtain ⟨rfl, isSz, arguments, views⟩ := isResult sz esp rfl
          have program : Program kernel path k k₁.fs ip elf _ d size m₃ :=
            program_of_image ready under.fs isInum loaded isElf (not_not.mp short)
              (not_not.mp notElf) rfl laid image building₂.small
              (maps created.notZero) fun v inSpace outside => views v inSpace
                (outside.imp_right (Vm.pagesOf_le_userPages building₃.small).trans)
          apply (commit_meets ready inv hand isLive created.notLive created.notZero
            (under₂.withMemory m₃) building₃).mono
          rintro ok _ ⟨isOk, m', rfl, replaced⟩
          exact Or.inr ⟨isOk, installed_of_replaced (under₂.withMemory m₃) building₃ program
            rfl isSz building₂.small arguments replaced⟩
      · intro stop fault
        exact congrArg Stop.memory fault

/-- `exec` up to `load`: the file of the program is locked, unless there is none or the
inode cache is full. -/
theorem exec_opens (ready : Ready k) {post : Bool → State → Prop}
    (missing : lookupPath k.fs k.proc.cwd path = none →
      ∀ fs, Under k none ⟨fs, k.memory, k.outstanding + 1 - 1, k.proc⟩ →
        post false ⟨fs, k.memory, k.outstanding + 1 - 1, k.proc⟩)
    (found : ∀ ip fs, Under k (some ip) ⟨fs, k.memory, k.outstanding + 1, k.proc⟩ →
      Fs.Loaded fs ip → lookupPath k.fs k.proc.cwd path = some (fs.inode ip).inum →
      Meets (load kernel ip path argv) ⟨fs, k.memory, k.outstanding + 1, k.proc⟩ post stops)
    (full : ¬ Room k.fs → stops (.fs noInodes)) : Meets (exec kernel path argv) k post stops := by
  rw [exec, meets_bind, beginOp, meets_modify, meets_bind, meets_get, meets_bind]
  apply onFs_meets
  apply (Fs.namei_meets ready.tree ready.quiet ready.cwd.1 ready.cwd.2 path).imp
  · rintro result fs ⟨visits, node, isResult⟩
    cases result with
    | none =>
      refine missing isResult.symm fs ⟨visits, by simp, ?_, rfl⟩
      show k.outstanding + 1 - 1 = k.outstanding + 0
      omega
    | some ip =>
      have nonneg := ready.quiet.nonneg ip
      have refHere := visits.ref ip
      rw [one_some_self] at refHere
      rw [meets_bind]
      apply onFs_meets
      apply visits.ilock ready.tree (node ip rfl) (by omega)
      intro fs₁ locked sameInum loaded
      refine found ip fs₁ ⟨locked, fun jp isIp => ?_, rfl, rfl⟩ loaded (sameInum ▸ isResult.symm)
      exact Option.some.inj isIp ▸ (node ip rfl).congr sameInum
  · rintro stop ⟨rfl, isFull⟩
    exact full isFull

theorem exec_meets (kernel : Vm.KernelImage) (path : List UInt8) (argv : List (List UInt8))
    (ready : Ready k) :
    Meets (exec kernel path argv) k (Outcome kernel path argv k)
      fun stop => stop = .memory .fault ∨ (stop = .fs noInodes ∧ ¬ Room k.fs) := by
  obtain ⟨live, own, inv, hand, isLive⟩ := ready.memory
  refine exec_opens ready (fun _ fs under => ?_) (fun ip fs under loaded isPath => ?_)
    fun full => Or.inr ⟨rfl, full⟩
  · exact Or.inl ⟨rfl, Restored.of_failed inv under ⟨inv, fun _ => ⟨rfl, rfl⟩⟩⟩
  · exact (load_meets ready inv hand isLive under rfl loaded isPath).imp
      (fun _ _ outcome => outcome) fun _ fault => Or.inl fault

end Call

/-! ## A small program -/

/-- The ELF header of a program with one program header, which follows. -/
def smallElf : List UInt8 :=
  [0x7f, 0x45, 0x4c, 0x46] ++ List.replicate 24 0 ++ [52, 0, 0, 0] ++
    List.replicate 12 0 ++ [1, 0] ++ List.replicate 6 0

/-- A program header for a page at address 0, with the four bytes behind it. -/
def smallHeader : List UInt8 :=
  [1, 0, 0, 0, 84, 0, 0, 0] ++ List.replicate 8 0 ++ [4, 0, 0, 0, 0, 16, 0, 0] ++ List.replicate 8 0

def smallProgram : List UInt8 := smallElf ++ smallHeader ++ [1, 2, 3, 4]

theorem exec_smallProgram (kernel : Vm.KernelImage) {path : List UInt8} {argv : List (List UInt8)}
    {k : State} (ready : Ready k) (room : Room k.fs) (plenty : Vm.Plenty (4 + 2 + 201) k.memory)
    {inum : Nat} (isPath : lookupPath k.fs k.proc.cwd path = some inum)
    (isFile : (Fs.dinodeAt k.fs.sb k.fs.disk inum).type = Fs.tFile)
    (isContent : Fs.content k.fs inum = smallProgram)
    (fits : (argv.map fun arg => arg.length + 4).sum + 4 * (argv.length + 4) ≤ Vm.pgSize)
    (few : argv.length ≤ Vm.maxArg) :
    ∃ k', (exec kernel path argv).run k = .ok (true, k') := by
  obtain ⟨live, own, inv, hand, isLive⟩ := ready.memory
  have total : Meets (exec kernel path argv) k (fun ok _ => ok = true) fun _ => False := by
    refine exec_opens ready (by simp [isPath]) (fun ip fs₁ under loaded isInum => ?_)
      fun full => full room
    have locked : Visits k.fs (one (some ip)) (some ip) fs₁ := under.fs
    rw [isPath] at isInum
    have sameInum := (Option.some.inj isInum).symm
    have notDevice : (fs₁.inode ip).din.type ≠ Fs.tDev := by
      rw [loaded.copy, locked.sb, locked.disk, sameInum, isFile]
      decide
    have reads : ∀ {off n}, n < 2 ^ 32 → off ≤ smallProgram.length ∧ off + n < 2 ^ 32 →
        (fileOf fs₁ ip).readi off n = some ((smallProgram.drop off).take n) := by
      intro off n small inside
      rw [fileOf_content (locked.consistent ready.tree) loaded notDevice small, locked.content,
        sameInum, isContent, if_pos inside]
    have isElf : (fileOf fs₁ ip).readi 0 Vm.elfhdrSize = some smallElf :=
      (reads (by decide) (by decide)).trans (by decide)
    have isHeader : (fileOf fs₁ ip).readi 52 Vm.proghdrSize = some smallHeader :=
      (reads (by decide) (by decide)).trans (by decide)
    have isData : (fileOf fs₁ ip).readi 84 4 = some [1, 2, 3, 4] :=
      (reads (by decide) (by decide)).trans (by decide)
    have inFile : ∀ j < 4, (fileOf fs₁ ip).byteAt 84 4 j ≠ none := by
      intro j below
      rw [← Nat.zero_add j, ← Nat.zero_mul Vm.pgSize,
        Vm.File.byteAt_page (lt_trans below (by decide)), Nat.zero_mul, Nat.sub_zero,
        if_pos (by decide), Nat.add_zero, Nat.mod_eq_of_lt (by decide), isData, Option.bind_some]
      simpa using below
    rw [load, meets_bind, meets_get]
    dsimp only
    rw [isElf]
    dsimp only
    rw [if_neg (by decide), if_neg (by decide), meets_bind]
    apply onVm_meets
    apply (Vm.setupkvm_total kernel inv hand).imp _ fun _ never => never.elim
    rintro d m₁ ⟨made, enough⟩
    obtain ⟨notZero, plenty₁⟩ := enough (4 + 2) plenty
    rcases made with ⟨zero, _⟩ | ⟨own₁, created, noUser⟩
    · exact absurd zero notZero
    have building := created.building noUser
    rw [if_neg notZero, meets_bind, show Vm.field smallElf 44 2 = 1 by decide,
      show Vm.field smallElf 28 4 = 52 by decide]
    apply onVm_meets
    apply ((Vm.loadProgram_total (Or.inl rfl) (fileOf fs₁ ip) 1 52 0 m₁ own₁ _ building
      (Vm.Image.empty d m₁)).and ((Vm.loadProgram_single (Or.inl rfl) building isHeader (by decide)
        (by decide) (by decide) (by decide) (by decide) (by decide) inFile plenty₁).imp
        (fun _ _ made => made) fun _ _ => trivial)).imp _ fun _ never => never.elim
    rintro _ m₂ ⟨⟨own₂, _, _, _, building₂, _, _, isSize⟩, rfl, plenty₂⟩
    obtain ⟨rfl, _⟩ := isSize _ rfl
    rw [meets_bind]
    apply (release_meets ready (under.withMemory m₂)).mono
    rintro _ k₂ ⟨under₂, memory₂⟩
    rw [meets_bind]
    apply onVm_meets
    rw [memory₂]
    apply ((Vm.stackImage_fits (Or.inl rfl) building₂ plenty₂ (by decide) fits few).and
      ((Vm.stackImage_meets (Or.inl rfl) argv building₂).imp (fun _ _ made => made)
        fun _ _ => trivial)).imp _ fun _ never => never.elim
    rintro result m₃ ⟨isSome, own₃, reached, building₃, isResult⟩
    obtain ⟨⟨sz, esp⟩, rfl⟩ := Option.ne_none_iff_exists'.mp isSome
    obtain ⟨rfl, _⟩ := isResult sz esp rfl
    exact (commit_meets ready inv hand isLive created.notLive notZero (under₂.withMemory m₃)
      building₃).mono fun _ _ committed => committed.1
  obtain ⟨ok, k', ran, rfl⟩ := total.returns
  exact ⟨k', ran⟩

/-- A process that can run the small program, as `f`, with enough memory. -/
theorem smallProcess : ∃ k : State, Ready k ∧ Room k.fs ∧ Vm.Plenty (4 + 2 + 201) k.memory ∧
    lookupPath k.fs k.proc.cwd [102] = some 2 ∧
      (Fs.dinodeAt k.fs.sb k.fs.disk 2).type = Fs.tFile ∧ Fs.content k.fs 2 = smallProgram := by
  obtain ⟨fs, tree, quiet, room, inUse, isOne, isPath, isFile, isContent⟩ :=
    Fs.smallTree_with (show smallProgram.length ≤ bSize by decide)
  obtain ⟨d, m, own, _, created, _, plenty⟩ := Vm.setupkvm_returns Vm.smallKernel (fun _ => rfl)
    (Vm.plenty_range (show 4 + 2 + 201 + 201 < Vm.physTop / Vm.pgSize by decide))
  refine ⟨⟨fs, m, 0, ⟨d, 0, 1, ⟨0, 0⟩, [], fun _ => none, Fs.firstSlot⟩⟩,
    ⟨tree, quiet, ⟨inUse, ?_⟩, Nat.one_ne_zero, _, own, created.inv, created.hand, Or.inl rfl⟩,
      room,
    plenty, isPath, isFile, isContent⟩
  rw [isOne]
  exact tree.root.1

/-- A new program finds its arguments on the stack. -/
theorem exec_passes_arguments (kernel : Vm.KernelImage) (path : List UInt8)
    (argv : List (List UInt8)) {k k' : State} (ready : Ready k)
    (success : (exec kernel path argv).run k = .ok (true, k')) :
    Vm.Arguments k'.memory k'.proc.pgdir k'.proc.sz k'.proc.tf.esp argv := by
  rcases (exec_meets kernel path argv ready).of_run success with ⟨failed, _⟩ | ⟨_, installed⟩
  · cases failed
  · exact installed.stack

/-- The program `f` finds its name. -/
theorem exec_passes_arguments_one : ∃ k k' : State,
    (exec Vm.smallKernel [102] [[102]]).run k = .ok (true, k') ∧
      Vm.Arguments k'.memory k'.proc.pgdir k'.proc.sz k'.proc.tf.esp [[102]] := by
  obtain ⟨k, ready, room, plenty, isPath, isFile, isContent⟩ := smallProcess
  obtain ⟨k', ran⟩ := exec_smallProgram Vm.smallKernel ready room plenty isPath isFile isContent
    (show ([[102]].map fun arg : List UInt8 => arg.length + 4).sum + 4 * (1 + 4) ≤
      Vm.pgSize by decide)
    (by decide)
  exact ⟨k, k', ran, exec_passes_arguments Vm.smallKernel [102] [[102]] ready ran⟩

end Rexv6.Exec
