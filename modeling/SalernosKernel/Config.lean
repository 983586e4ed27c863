import Mathlib.Data.Nat.Notation

/-! # Constants of the build, error codes and vnode types -/

def archPageSize : ℕ := 4096
def openMax : ℕ := 96
def procMax : ℕ := 250000
def symlinkMax : ℕ := 32
def pathMax : ℕ := 256

def pagesFor (size : ℕ) : ℕ := (size + archPageSize - 1) / archPageSize

/-- `vfs` is any other code that a file system returns. -/
inductive Errno where
  | EPERM
  | ENOENT
  | ESRCH
  | EINTR
  | EBADF
  | ECHILD
  | EACCES
  | EEXIST
  | ENOTDIR
  | EISDIR
  | EINVAL
  | EMFILE
  | ENOSYS
  | ENOTEMPTY
  | ELOOP
  | vfs (code : ℕ)
  deriving DecidableEq

inductive VnodeType where
  | file
  | dir
  | link
  | chardev
  | fifo
  | socket
  | blockdev
  deriving DecidableEq
