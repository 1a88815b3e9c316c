import ShiziOS.Fs.Vfs

/-!
# Calls

The calls of the virtual file system as one type, so that properties can speak of every
call and of every sequence of calls. Each one is made by a task in an environment of its own.
-/

namespace ShiziOS.Fs

open Bytes Exec

inductive Call where
  | open (path : List Char) (flags : Flags) (mode : Mode) (pwd : Path)
  | fileGet (file : Ptr)
  | close (file : Ptr)
  | read (file count : Nat) (pos : Option Nat)
  | write (file : Ptr) (data : List Byte) (pos : Option Nat)
  | truncate (file length : Nat)
  | mkdir (path : List Char) (mode : Mode) (pwd : Path)
  | rmdir (path : List Char) (pwd : Path)
  | unlink (path : List Char) (pwd : Path)
  | symlink (target linkpath : List Char) (pwd : Path)
  | link (oldpath newpath : List Char) (pwd : Path)
  | rename (oldpath newpath : List Char) (pwd : Path)
  | mknod (path : List Char) (mode : Mode) (dev : Nat) (pwd : Path)
  | setattr (path : List Char) (attr : Iattr) (pwd : Path)

inductive Reply where
  | done
  | file (p : Ptr)
  | bytes (data : List Byte)
  | count (n : Nat)

/-- A call of `x` that replies with what `x` gives. -/
def replyWith {α : Type} (f : α → Reply) (x : K (Except Errno α)) : K (Except Errno Reply) := do
  match ← x with
  | .error e => pure (.error e)
  | .ok a => pure (.ok (f a))

def Call.run (env : Env) : Call → K (Except Errno Reply)
  | .open path flags mode pwd => replyWith .file (vfsOpen env path flags mode pwd)
  | .fileGet file => do
    vfsFileGet file
    pure (.ok .done)
  | .close file => do
    vfsClose file
    pure (.ok .done)
  | .read file count pos => replyWith .bytes (vfsRead env file count pos)
  | .write file data pos => replyWith .count (vfsWrite env file data pos)
  | .truncate file length => replyWith (fun _ => .done) (vfsTruncate env file length)
  | .mkdir path mode pwd => replyWith (fun _ => .done) (vfsMkdir env path mode pwd)
  | .rmdir path pwd => replyWith (fun _ => .done) (vfsRmdir env path pwd)
  | .unlink path pwd => replyWith (fun _ => .done) (vfsUnlink env path pwd)
  | .symlink target linkpath pwd => replyWith (fun _ => .done) (vfsSymlink env target linkpath pwd)
  | .link oldpath newpath pwd => replyWith (fun _ => .done) (vfsLink env oldpath newpath pwd)
  | .rename oldpath newpath pwd => replyWith (fun _ => .done) (vfsRename env oldpath newpath pwd)
  | .mknod path mode dev pwd => replyWith (fun _ => .done) (vfsMknod env path mode dev pwd)
  | .setattr path attr pwd => replyWith (fun _ => .done) (vfsSetattr env path attr pwd)

/-- One call after the other, each by a task of its own; the replies are not kept. -/
def runCalls : List (Env × Call) → K Unit
  | [] => pure ()
  | (env, call) :: calls => do
    let _ ← call.run env
    runCalls calls

theorem runCalls_append (calls calls' : List (Env × Call)) :
    runCalls (calls ++ calls') = (do runCalls calls; runCalls calls') := by
  induction calls with
  | nil => rw [List.nil_append, runCalls, pure_bind]
  | cons c calls ih => rw [List.cons_append, runCalls, runCalls, ih, bind_assoc]

end ShiziOS.Fs
