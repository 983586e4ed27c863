import Mathlib.Data.List.Basic
import SalernosKernel.Config

/-! # Looking up paths

`com_fs_vfs_lookup` of `com/fs/vfs.c` over tmpfs trees with mounts and symbolic links. What is done
to `num_ref` is returned beside the result: nothing else reads the counts, since a tmpfs vnode has
no `close`. -/
namespace Vfs

abbrev Bytes := List UInt8

def slash : UInt8 := 47

def dot : Bytes := [46]

def dotdot : Bytes := [46, 46]

structure Node where
  type : VnodeType
  vfs : ℕ
  mountpointof : Option ℕ
  isroot : Bool
  parent : Option ℕ
  entries : List (Bytes × ℕ)
  link : Bytes

structure Mount where
  mountpoint : Option ℕ
  root : ℕ

structure Tree where
  node : ℕ → Node
  vfs : ℕ → Mount
  numVfs : ℕ
  mounted : ∀ v f, (node v).mountpointof = some f →
    (node v).vfs < f ∧ f < numVfs ∧ (vfs f).mountpoint = some v
  root : ∀ f < numVfs, (node (vfs f).root).vfs = f ∧ (node (vfs f).root).type = .dir
  mountpoint : ∀ f v, (vfs f).mountpoint = some v → (node v).vfs < f ∧ (node v).type = .dir
  parent : ∀ v p, (node v).parent = some p → (node p).type = .dir
  bound : ∀ v, (node v).vfs < numVfs

inductive RefOp where
  | hold (v : ℕ)
  | release (v : ℕ)
  deriving DecidableEq

def Tree.above (t : Tree) (v : ℕ) : Option ℕ :=
  if (t.node v).isroot then (t.vfs (t.node v).vfs).mountpoint else none

def Tree.over (t : Tree) (v : ℕ) : Option ℕ :=
  (t.node v).mountpointof.map fun f => (t.vfs f).root

def climb (t : Tree) : ℕ → ℕ → ℕ × List RefOp
  | 0, v => (v, [])
  | fuel + 1, v =>
    match t.above v with
    | none => (v, [])
    | some m => ((climb t fuel m).1, .release v :: .hold m :: (climb t fuel m).2)

/-- The loop over `mountpointof`, with `dir` and `ret_vn`. -/
def descend (t : Tree) : ℕ → ℕ → ℕ → (ℕ × ℕ) × List RefOp
  | 0, dir, v => ((dir, v), [])
  | fuel + 1, dir, v =>
    match t.over v with
    | none => ((dir, v), [])
    | some r => ((descend t fuel v r).1,
        (if dir ≠ v then [.release dir] else []) ++ .hold r :: (descend t fuel v r).2)

def comFsTmpfsLookup (t : Tree) (dir : ℕ) (name : Bytes) : Except Errno ℕ × List RefOp :=
  if name = dotdot then
    match (t.node dir).parent with
    | some p => (.ok p, [.hold p])
    | none => (.ok dir, [])
  else
    match (t.node dir).entries.find? (·.1 = name) with
    | some entry => (.ok entry.2, [.hold entry.2])
    | none => (.error .ENOENT, [])

def lookupComponent (t : Tree) (v : ℕ) (name : Bytes) : Except Errno (ℕ × ℕ) × List RefOp :=
  let start := if name = dotdot then climb t t.numVfs v else (v, [])
  if (t.node start.1).type ≠ .dir then (.error .ENOTDIR, start.2 ++ [.release start.1])
  else
    match comFsTmpfsLookup t start.1 name with
    | (.error e, ops) => (.error e, start.2 ++ ops ++ [.release start.1])
    | (.ok w, ops) =>
      let r := descend t t.numVfs start.1 w
      (.ok r.1, start.2 ++ ops ++ r.2)

structure Hit where
  vn : ℕ
  dir : Option ℕ
  subpath : Option Bytes
  deriving DecidableEq

def lookupLoop (t : Tree) : ℕ → Bytes → ℕ → Except Errno Hit × List RefOp
  | 0, _, v => (.ok ⟨v, none, none⟩, [])
  | fuel + 1, path, v =>
    let path := path.dropWhile (· = slash)
    if path = [] then (.ok ⟨v, none, none⟩, [])
    else
      let name := path.takeWhile (· ≠ slash)
      -- it begins at `section_end`
      let rest := path.dropWhile (· ≠ slash)
      if name = dot then lookupLoop t fuel (rest.drop 1) v
      else
        match lookupComponent t v name with
        | (.error e, ops) => (.error e, ops)
        | (.ok (dir, w), ops) =>
          if (t.node w).type = .link then
            (.ok ⟨w, some dir, if rest = [] then none else some rest⟩, ops)
          else
            let r := lookupLoop t fuel (rest.drop 1) w
            (r.1, ops ++ r.2)

def lookupFrom (t : Tree) (path : Bytes) (v : ℕ) : Except Errno Hit × List RefOp :=
  ((lookupLoop t path.length path v).1, .hold v :: (lookupLoop t path.length path v).2)

def vfsLookup1 (t : Tree) (path : Bytes) (root : ℕ) (cwd : Option ℕ) :
    Except Errno Hit × List RefOp :=
  if path.head? = some slash then lookupFrom t path.tail root
  else
    match cwd with
    | none => (.error .EINVAL, [])
    | some v => lookupFrom t path v

def lookupLinks (t : Tree) (root : ℕ) : ℕ → Option ℕ → ℕ → Except Errno ℕ × List RefOp
  | 0, _, link => (.error .ELOOP, [.release link])
  | fuel + 1, cwd, link =>
    if (t.node link).type ≠ .link then (.ok link, [])
    else
      match vfsLookup1 t (t.node link).link root cwd with
      | (.error e, ops) => (.error e, .release link :: ops)
      | (.ok hit, ops) =>
        -- `cwd` is set only where the result is a link
        let r := lookupLinks t root fuel (hit.dir.or cwd) hit.vn
        (r.1, .release link :: ops ++ r.2)

def vfsLookup2 (t : Tree) (root : ℕ) (cwd : Option ℕ) (link : ℕ) : Except Errno ℕ × List RefOp :=
  lookupLinks t root symlinkMax cwd link

/-- The outer loop; the path gets shorter in every round. `symlink_dir` is set only where a link is
met and holds `wild` otherwise. -/
def lookupRounds (t : Tree) (wild : Option ℕ) (follow : Bool) :
    ℕ → Bytes → ℕ → Option ℕ → Except Errno ℕ × List RefOp
  | 0, _, root, _ => (.ok root, [])
  | fuel + 1, path, root, cwd =>
    match vfsLookup1 t path root cwd with
    | (.error e, ops) => (.error e, ops)
    | (.ok hit, ops) =>
      if hit.subpath.isSome ∨ ((t.node hit.vn).type = .link ∧ follow = true) then
        match vfsLookup2 t root (hit.dir.or wild) hit.vn with
        | (.error e, ops') => (.error e, ops ++ ops')
        | (.ok v, ops') =>
          match hit.subpath with
          | none => (.ok v, ops ++ ops')
          | some rest =>
            let r := lookupRounds t wild follow fuel rest v (some v)
            (r.1, ops ++ ops' ++ r.2)
      else (.ok hit.vn, ops)

def comFsVfsLookup (t : Tree) (wild : Option ℕ) (path : Bytes) (root : ℕ) (cwd : Option ℕ)
    (follow : Bool) : Except Errno ℕ × List RefOp :=
  lookupRounds t wild follow (path.length + 1) path root cwd

end Vfs
