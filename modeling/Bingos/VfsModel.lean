import Bingos.CStrings

set_option autoImplicit false

/-! The mount tree and path lookup of `fs/fs.c`. A `vfs_node_t` is its address; a null pointer
is `none`. -/
namespace Bingos.Vfs

open CStrings

def slash : UInt8 := 47

def vfsFile : ℕ := 0x01

def vfsDirectory : ℕ := 0x02

structure Dirent where
  dIno : ℕ
  dName : Bytes
  deriving DecidableEq

def maxTreeChildren : ℕ := 10

def entryNameSize : ℕ := 64

inductive TreeNode where
  | mk (name : Bytes) (file : Option ℕ) (children : List TreeNode)

namespace TreeNode

def name : TreeNode → Bytes
  | mk n _ _ => n

def file : TreeNode → Option ℕ
  | mk _ f _ => f

def children : TreeNode → List TreeNode
  | mk _ _ cs => cs

def child (t : TreeNode) (c : Bytes) : Option TreeNode :=
  t.children.find? (fun n => n.name = c)

end TreeNode

structure FileSystem where
  flags : ℕ → ℕ
  finddir : ℕ → Option (Bytes → Option ℕ)
deriving Inhabited

def vfsFinddir (fs : FileSystem) (vfsRoot : ℕ) (tree : TreeNode) (node : ℕ) (name : Bytes) :
    Option ℕ :=
  if node = vfsRoot then
    (tree.child name).bind TreeNode.file
  else if fs.flags node &&& 7 = vfsDirectory then
    match fs.finddir node with
    | some f => f name
    | none => none
  else
    none

def splitPath : Bytes → Bytes × ℕ
  | [] => ([], 0)
  | c :: s =>
    if c = slash then (0 :: (splitPath s).1, (splitPath s).2 + 1)
    else (c :: (splitPath s).1, (splitPath s).2)

def replaceFirst (n : TreeNode) : List TreeNode → List TreeNode
  | [] => []
  | x :: xs => if x.name = n.name then n :: xs else x :: replaceFirst n xs

/-- The loop of `vfs_mount`. A child beyond the tenth, or a name that overruns its entry, has no
result. -/
def mountLoop (buf : Bytes) (stop : ℕ) (lroot : Option ℕ) : ℕ → ℕ → TreeNode → Option TreeNode
  | 0, _, _ => none
  | fuel + 1, p, node =>
    if stop ≤ p then
      some (.mk node.name lroot node.children)
    else
      match node.child (cstr buf p) with
      | some child =>
        (mountLoop buf stop lroot fuel (p + strlen buf p + 1) child).map fun n =>
          .mk node.name node.file (replaceFirst n node.children)
      | none =>
        if maxTreeChildren ≤ node.children.length ∨ entryNameSize ≤ strlen buf p then
          none
        else
          (mountLoop buf stop lroot fuel (p + strlen buf p + 1)
            (.mk (cstr buf p) none [])).map fun n =>
              .mk node.name node.file (node.children ++ [n])

def vfsMount (tree : TreeNode) (path : Bytes) (lroot : Option ℕ) : Option TreeNode :=
  if path.head? ≠ some slash then
    some tree
  else if path.length = 1 then
    some tree
  else
    mountLoop ((splitPath path).1 ++ [0]) path.length lroot path.length 1 tree

def vfsInit (vfsRoot : ℕ) : TreeNode := .mk [slash] (some vfsRoot) []

def skipStrings (buf : Bytes) (path : ℕ) : ℕ → ℕ
  | 0 => path
  | depth + 1 => skipStrings buf (path + strlen buf path + 1) depth

structure MountPoint where
  last : ℕ
  mountPath : ℕ
  mountDepth : ℕ

/-- The search loop of `vfs_get_mount_point`; each round moves `p`, so `stop` rounds suffice. -/
def mountPointLoop (buf : Bytes) (stop : ℕ) : ℕ → ℕ → TreeNode → MountPoint → MountPoint
  | 0, _, _, mp => mp
  | fuel + 1, p, node, mp =>
    if stop ≤ p then
      mp
    else
      match node.child (cstr buf p) with
      | none => mp
      | some child =>
        let next := p + strlen buf p + 1
        mountPointLoop buf stop fuel next child
          (match child.file with
            | some file => ⟨file, next, mp.mountDepth + 1⟩
            | none => ⟨mp.last, mp.mountPath, mp.mountDepth + 1⟩)

def vfsGetMountPoint (vfsRoot : ℕ) (tree : TreeNode) (buf : Bytes) (path depth : ℕ) : MountPoint :=
  mountPointLoop buf (skipStrings buf path depth) (skipStrings buf path depth) path tree
    ⟨vfsRoot, path, 0⟩

/-- The loop of `vfs_lookup_internal`: every round asks the same node `n`. -/
def lookupLoop (fs : FileSystem) (vfsRoot : ℕ) (tree : TreeNode) (buf : Bytes) (n : ℕ) :
    ℕ → ℕ → Option ℕ → Option ℕ
  | 0, _, ret => ret
  | depth + 1, path, _ =>
    lookupLoop fs vfsRoot tree buf n depth (path + strlen buf path + 1)
      (vfsFinddir fs vfsRoot tree n (cstr buf path))

def vfsLookupInternal (fs : FileSystem) (vfsRoot : ℕ) (tree : TreeNode) (buf : Bytes)
    (n path depth : ℕ) : Option ℕ :=
  if buf.getD path 0 = 0 then
    some n
  else if depth = 0 then
    vfsFinddir fs vfsRoot tree n (cstr buf path)
  else
    lookupLoop fs vfsRoot tree buf n depth path none

def vfsLookup (fs : FileSystem) (vfsRoot : ℕ) (tree : TreeNode) (path beyond : Bytes) :
    Option ℕ :=
  if path.head? ≠ some slash then
    none
  else if path.length = 1 then
    some vfsRoot
  else
    let buf := (splitPath path).1 ++ 0 :: beyond
    let pdepth := (splitPath path).2
    let mp := vfsGetMountPoint vfsRoot tree buf 1 pdepth
    if mp.mountDepth ≤ pdepth then
      vfsLookupInternal fs vfsRoot tree buf mp.last mp.mountPath (pdepth - mp.mountDepth)
    else
      some mp.last

end Bingos.Vfs
