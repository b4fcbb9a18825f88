import Mathlib.Data.List.Basic
import Mathlib.Logic.Function.Basic

/-!
The files of a directory, as several processes see them.

A name refers to an inode, and an inode holds the bytes of a file. A process that
has opened a file goes on with its inode, whatever becomes of the name. Every
inode can carry the write lock of one process. No two names refer to the same
inode.
-/

/-- The bytes of a file after some bytes have been written from position `pos` on.
What they do not cover stays. -/
def overwrite (old : List UInt8) (pos : ℕ) (bytes : List UInt8) : List UInt8 :=
  old.take pos ++ (List.replicate (pos - old.length) 0 ++ (bytes ++ old.drop (pos + bytes.length)))

/-- Writing where an earlier write from the beginning of the file left off. -/
theorem overwrite_append (old done bytes : List UInt8) :
    overwrite (done ++ old.drop done.length) done.length bytes =
      (done ++ bytes) ++ old.drop (done ++ bytes).length := by
  simp [overwrite]

/-- A directory: every name refers to an inode below `used`, and no inode has two
names. -/
structure IsDir {N : Type} (dir : N → Option ℕ) (used : ℕ) : Prop where
  lt : ∀ n i, dir n = some i → i < used
  inj : ∀ n m i, dir n = some i → dir m = some i → n = m

namespace IsDir

variable {N : Type} [DecidableEq N] {dir : N → Option ℕ} {used : ℕ}

theorem unlink (h : IsDir dir used) (n : N) : IsDir (Function.update dir n none) used := by
  have hdir : ∀ m i, Function.update dir n none m = some i → dir m = some i := by
    intro m i hm
    rcases eq_or_ne m n with rfl | hmn
    · rw [Function.update_self] at hm
      cases hm
    · rwa [Function.update_of_ne hmn] at hm
  exact ⟨fun m i hm => h.lt m i (hdir m i hm),
    fun m m' i hm hm' => h.inj m m' i (hdir m i hm) (hdir m' i hm')⟩

theorem link {used' i : ℕ} (h : IsDir dir used) (n : N) (hused : used ≤ used') (hi : i < used')
    (hfree : ∀ m, dir m ≠ some i) : IsDir (Function.update dir n (some i)) used' := by
  have hdir : ∀ m j, Function.update dir n (some i) m = some j →
      m = n ∧ j = i ∨ m ≠ n ∧ j ≠ i ∧ dir m = some j := by
    intro m j hm
    rcases eq_or_ne m n with rfl | hmn
    · rw [Function.update_self] at hm
      exact .inl ⟨rfl, (Option.some.inj hm).symm⟩
    · rw [Function.update_of_ne hmn] at hm
      refine .inr ⟨hmn, ?_, hm⟩
      rintro rfl
      exact hfree m hm
  constructor
  · intro m j hm
    rcases hdir m j hm with ⟨-, rfl⟩ | ⟨-, -, hm⟩
    · exact hi
    · exact Nat.lt_of_lt_of_le (h.lt m j hm) hused
  · intro m m' j hm hm'
    rcases hdir m j hm with ⟨rfl, rfl⟩ | ⟨-, hj, hm⟩
    · rcases hdir m' j hm' with ⟨rfl, -⟩ | ⟨-, hne, -⟩
      · rfl
      · exact absurd rfl hne
    · rcases hdir m' j hm' with ⟨-, rfl⟩ | ⟨-, -, hm'⟩
      · exact absurd rfl hj
      · exact h.inj m m' j hm hm'

end IsDir

theorem IsDir.single {N : Type} [DecidableEq N] (n : N) :
    IsDir (Function.update (fun _ => none) n (some 0)) 1 := by
  have hempty : IsDir (fun _ : N => none) 0 := by
    constructor
    · intro m i hm
      cases hm
    · intro m m' i hm
      cases hm
  exact hempty.link n (Nat.zero_le 1) Nat.zero_lt_one fun m hm => by cases hm

/-- `N` are the names, `P` are the processes. -/
structure FileSystem (N P : Type) where
  dir : N → Option ℕ
  used : ℕ
  isDir : IsDir dir used
  data : ℕ → List UInt8
  /-- The file may be opened for reading and writing. -/
  access : ℕ → Bool
  /-- The process that has the write lock. -/
  owner : ℕ → Option P

namespace FileSystem

variable {N P : Type}

def single [DecidableEq N] (n : N) (bytes : List UInt8) : FileSystem N P where
  dir := Function.update (fun _ => none) n (some 0)
  used := 1
  isDir := IsDir.single n
  data := fun _ => bytes
  access := fun _ => true
  owner := fun _ => none

def content (fs : FileSystem N P) (n : N) : Option (List UInt8) := (fs.dir n).map fs.data

/-- `fopen(n,"r+")` -/
def openFile (fs : FileSystem N P) (n : N) : Option ℕ := (fs.dir n).filter fs.access

def write (fs : FileSystem N P) (i pos : ℕ) (bytes : List UInt8) : FileSystem N P :=
  { fs with data := Function.update fs.data i (overwrite (fs.data i) pos bytes) }

/-! ### Locks -/

section Locks

variable [DecidableEq P] (fs : FileSystem N P) (p : P) (i : ℕ)

/-- `fcntl(i,F_SETLK,..)` with a write lock on the whole file: `none` when another
process holds a lock. -/
def setLock : Option (FileSystem N P) :=
  match fs.owner i with
  | none => some { fs with owner := Function.update fs.owner i (some p) }
  | some q => if q = p then some fs else none

/-- Closing a file gives up the lock that the process has on it. -/
def close : FileSystem N P :=
  if fs.owner i = some p then { fs with owner := Function.update fs.owner i none } else fs

def exit : FileSystem N P :=
  { fs with owner := fun i => if fs.owner i = some p then none else fs.owner i }

@[simp] theorem close_dir : (fs.close p i).dir = fs.dir := by
  rw [close]
  split <;> rfl

@[simp] theorem close_data : (fs.close p i).data = fs.data := by
  rw [close]
  split <;> rfl

variable {fs p i}

theorem close_owner_of_ne {j : ℕ} (h : j ≠ i) : (fs.close p i).owner j = fs.owner j := by
  rw [close]
  split
  · exact Function.update_of_ne h _ _
  · rfl

theorem setLock_of_none (h : fs.owner i = none) :
    fs.setLock p i = some { fs with owner := Function.update fs.owner i (some p) } := by
  rw [setLock, h]

theorem setLock_eq {fs' : FileSystem N P} (h : fs.setLock p i = some fs') :
    fs'.dir = fs.dir ∧ fs'.data = fs.data ∧ fs'.access = fs.access := by
  rw [setLock] at h
  split at h
  · cases h
    exact ⟨rfl, rfl, rfl⟩
  · split at h <;> cases h
    exact ⟨rfl, rfl, rfl⟩

theorem setLock_owner {fs' : FileSystem N P} (h : fs.setLock p i = some fs') :
    fs'.owner i = some p := by
  rw [setLock] at h
  split at h
  · cases h
    exact Function.update_self ..
  · rename_i q hq
    split at h <;> cases h
    rename_i heq
    rw [hq, heq]

theorem setLock_of_owner {q : P} (h : fs.owner i = some q) (hqp : q ≠ p) :
    fs.setLock p i = none := by
  rw [setLock, h]
  exact if_neg hqp

end Locks

/-! ### Names -/

section Names

variable [DecidableEq N] (fs : FileSystem N P) (n a b : N)

def create : FileSystem N P where
  dir := Function.update fs.dir n (some fs.used)
  used := fs.used + 1
  isDir := fs.isDir.link n (Nat.le_succ _) (Nat.lt_succ_self _) fun m h =>
    Nat.lt_irrefl _ (fs.isDir.lt m _ h)
  data := Function.update fs.data fs.used []
  access := Function.update fs.access fs.used true
  owner := Function.update fs.owner fs.used none

/-- `open(n,O_RDWR|O_CREAT)`, without `O_TRUNC`. -/
def openCreate : Option ℕ × FileSystem N P :=
  match fs.dir n with
  | some i => if fs.access i = true then (some i, fs) else (none, fs)
  | none => (some fs.used, fs.create n)

def unlink : FileSystem N P :=
  { fs with dir := Function.update fs.dir n none, isDir := fs.isDir.unlink n }

def rename : FileSystem N P :=
  match h : fs.dir a with
  | none => fs
  | some i =>
      if a = b then fs
      else
        { fs with
          dir := Function.update (Function.update fs.dir a none) b (some i)
          isDir := (fs.isDir.unlink a).link b (Nat.le_refl _) (fs.isDir.lt a i h) (by
            intro m hm
            rcases eq_or_ne m a with rfl | hma
            · rw [Function.update_self] at hm
              cases hm
            · rw [Function.update_of_ne hma] at hm
              exact hma (fs.isDir.inj m a i hm h)) }

@[simp] theorem rename_data : (fs.rename a b).data = fs.data := by
  rw [rename]
  split
  · rfl
  · split <;> rfl

variable {fs n a b} {i : ℕ}

/-- What a rename does to the names. -/
theorem rename_dir (hab : a ≠ b) (h : fs.dir a = some i) :
    (fs.rename a b).dir = Function.update (Function.update fs.dir a none) b (some i) := by
  rw [rename]
  split
  · rename_i hnone
    rw [hnone] at h
    cases h
  · rename_i j hj
    rw [if_neg hab]
    rw [hj] at h
    cases h
    rfl

theorem content_unlink : (fs.unlink n).content n = none := by
  have hnone : (fs.unlink n).dir n = none := Function.update_self ..
  rw [content, hnone]
  rfl

theorem openFile_unlink (h : a ≠ n) : (fs.unlink n).openFile a = fs.openFile a := by
  show (Function.update fs.dir n none a).filter fs.access = _
  rw [Function.update_of_ne h]
  rfl

/-- A name that does not exist is created, and its file can be locked. -/
theorem openCreate_unlink [DecidableEq P] (p : P) :
    ∃ i fs', ((fs.unlink n).openCreate n).1 = some i ∧
      ((fs.unlink n).openCreate n).2.setLock p i = some fs' := by
  have hnone : (fs.unlink n).dir n = none := Function.update_self ..
  have hcreate : (fs.unlink n).openCreate n = (some fs.used, (fs.unlink n).create n) := by
    rw [openCreate, hnone]
    rfl
  have howner : ((fs.unlink n).create n).owner fs.used = none := Function.update_self ..
  rw [hcreate]
  exact ⟨fs.used, _, rfl, setLock_of_none howner⟩

theorem openCreate_of_some (h : fs.dir n = some i) :
    (fs.openCreate n).2 = fs ∧ ∀ j, (fs.openCreate n).1 = some j → j = i := by
  rw [openCreate, h]
  dsimp only
  split
  · exact ⟨rfl, fun j hj => (Option.some.inj hj).symm⟩
  · exact ⟨rfl, fun j hj => by cases hj⟩

/-- Opening a file that may have to be created: what stood under the name is the
content, and all other names and files are the same. -/
theorem openCreate_eq (h : (fs.openCreate n).1 = some i) :
    (fs.openCreate n).2.dir n = some i ∧
      (fs.openCreate n).2.data i = (fs.content n).getD [] ∧
      (∀ m, m ≠ n → (fs.openCreate n).2.dir m = fs.dir m) ∧
      ∀ j < fs.used, (fs.openCreate n).2.data j = fs.data j ∧
        (fs.openCreate n).2.access j = fs.access j := by
  rw [openCreate] at h ⊢
  split at h
  · rename_i j hj
    split at h
    · rename_i haccess
      cases h
      simp [hj, haccess, content]
    · cases h
  · rename_i hnone
    cases h
    refine ⟨Function.update_self .., ?_, fun m hm => Function.update_of_ne hm _ _, fun j hj => ?_⟩
    · simp [hnone, content, create]
    · have hne : j ≠ fs.used := Nat.ne_of_lt hj
      exact ⟨Function.update_of_ne hne _ _, Function.update_of_ne hne _ _⟩

end Names

end FileSystem
