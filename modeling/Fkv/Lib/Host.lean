import Mathlib.Data.Finset.Basic
import Mathlib.Data.Multiset.AddSub

/-- A process with its heap blocks, descriptors and mappings, and the files of the
system. A resource is named by the number of acquisitions tried before its own. -/
structure Host (φ : Type*) where
  tries : Nat
  heap : Multiset Nat
  fds : Multiset Nat
  maps : Multiset Nat
  files : Finset φ

namespace Host

/-- Releasing what is not held. -/
inductive Misuse
  | notHeld
  deriving DecidableEq, Repr

variable {φ : Type*}

/-- The acquisition with number `failAt` fails, all others succeed. -/
def malloc (failAt : Nat) (host : Host φ) : Option Nat × Host φ :=
  let next := { host with tries := host.tries + 1 }
  if host.tries = failAt then (none, next) else (some host.tries, { next with heap := host.tries ::ₘ host.heap })

/-- A mapping of length 0 always fails. -/
def mmap (failAt length : Nat) (host : Host φ) : Option Nat × Host φ :=
  let next := { host with tries := host.tries + 1 }
  if host.tries = failAt ∨ length = 0 then (none, next)
  else (some host.tries, { next with maps := host.tries ::ₘ host.maps })

def free (block : Nat) (host : Host φ) : Except Misuse (Host φ) :=
  if block ∈ host.heap then .ok { host with heap := host.heap.erase block } else .error .notHeld

def close (fd : Nat) (host : Host φ) : Except Misuse (Host φ) :=
  if fd ∈ host.fds then .ok { host with fds := host.fds.erase fd } else .error .notHeld

def munmap (addr : Nat) (host : Host φ) : Except Misuse (Host φ) :=
  if addr ∈ host.maps then .ok { host with maps := host.maps.erase addr } else .error .notHeld

theorem malloc_some {failAt tries : Nat} {heap fds maps : Multiset Nat} {files : Finset φ}
    (succeeds : tries ≠ failAt) : malloc failAt (⟨tries, heap, fds, maps, files⟩ : Host φ) =
    (some tries, ⟨tries + 1, tries ::ₘ heap, fds, maps, files⟩) := by
  simp [malloc, succeeds]

theorem malloc_none {failAt : Nat} {heap fds maps : Multiset Nat} {files : Finset φ} :
    malloc failAt (⟨failAt, heap, fds, maps, files⟩ : Host φ) =
    (none, ⟨failAt + 1, heap, fds, maps, files⟩) := by
  simp [malloc]

theorem mmap_some {failAt tries length : Nat} {heap fds maps : Multiset Nat} {files : Finset φ}
    (succeeds : tries ≠ failAt) (positive : length ≠ 0) :
    mmap failAt length (⟨tries, heap, fds, maps, files⟩ : Host φ) =
      (some tries, ⟨tries + 1, heap, fds, tries ::ₘ maps, files⟩) := by
  simp [mmap, succeeds, positive]

theorem mmap_none {failAt tries length : Nat} {heap fds maps : Multiset Nat} {files : Finset φ}
    (fails : tries = failAt ∨ length = 0) :
    mmap failAt length (⟨tries, heap, fds, maps, files⟩ : Host φ) =
      (none, ⟨tries + 1, heap, fds, maps, files⟩) := by
  simp [mmap, fails]

@[simp] theorem free_held {tries n : Nat} {heap fds maps : Multiset Nat} {files : Finset φ} :
    free n (⟨tries, n ::ₘ heap, fds, maps, files⟩ : Host φ) = .ok ⟨tries, heap, fds, maps, files⟩ := by
  simp [free]

@[simp] theorem close_held {tries n : Nat} {heap fds maps : Multiset Nat} {files : Finset φ} :
    close n (⟨tries, heap, n ::ₘ fds, maps, files⟩ : Host φ) = .ok ⟨tries, heap, fds, maps, files⟩ := by
  simp [close]

@[simp] theorem munmap_held {tries n : Nat} {heap fds maps : Multiset Nat} {files : Finset φ} :
    munmap n (⟨tries, heap, fds, n ::ₘ maps, files⟩ : Host φ) = .ok ⟨tries, heap, fds, maps, files⟩ := by
  simp [munmap]

section Files
variable [DecidableEq φ]

/-- With `O_CREAT`. -/
def openFile (failAt : Nat) (path : φ) (host : Host φ) : Option Nat × Host φ :=
  let next := { host with tries := host.tries + 1 }
  if host.tries = failAt then (none, next)
  else (some host.tries, { next with fds := host.tries ::ₘ host.fds, files := insert path host.files })

def unlink (path : φ) (host : Host φ) : Host φ := { host with files := host.files.erase path }

theorem openFile_some {failAt tries : Nat} {heap fds maps : Multiset Nat} {files : Finset φ} {path : φ}
    (succeeds : tries ≠ failAt) : openFile failAt path ⟨tries, heap, fds, maps, files⟩ =
    (some tries, ⟨tries + 1, heap, tries ::ₘ fds, maps, insert path files⟩) := by
  simp [openFile, succeeds]

theorem openFile_none {failAt : Nat} {heap fds maps : Multiset Nat} {files : Finset φ} {path : φ} :
    openFile failAt path ⟨failAt, heap, fds, maps, files⟩ =
    (none, ⟨failAt + 1, heap, fds, maps, files⟩) := by
  simp [openFile]

@[simp] theorem unlink_eq {tries : Nat} {heap fds maps : Multiset Nat} {files : Finset φ} {path : φ} :
    unlink path (⟨tries, heap, fds, maps, files⟩ : Host φ) = ⟨tries, heap, fds, maps, files.erase path⟩ := rfl

end Files

end Host
