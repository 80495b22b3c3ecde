import SeaKernel.Lib.Contents
import SeaKernel.Lib.Word
import Mathlib

/-!
# Reading and writing a file

A model of `inode_do_read_data` and `inode_do_write_data` of `kernel/fs/inoderw.c`, of the page
cache of `kernel/fs/inode.c` under them, of `read_page` and `write_page` of `kernel/fs/ramfs.c`, and
of `file_truncate` of `kernel/fs/file.c`, for one file.

The bytes of a file are in the pages of the cache and in the blocks of ramfs. A page is loaded with
the part of its block below the length of the file, and zeroes behind it; it is written back when it
is evicted with its dirty flag set. Pages that are not held may be evicted at any point, by a
reclaim of the cache; around each access to a page, `Around` says which. The dirty flag of a page
that is loaded is what the object it is put in had before.

## Main definitions

* `File`: the length, the cached pages and the blocks of a file
* `File.getPage`, `File.evict`: `inode_get_page` and the release of an evicted page
* `File.doReadData`, `File.doWriteData`, `File.truncate`: the operations
-/

namespace SeaKernel.PageCache

open Function

/-- `arch_mm_page_size(0)` -/
def pageSize : ℕ := 0x1000

/-- `struct inodepage`: the frame, and `INODEPAGE_DIRTY`. -/
structure Page where
  data : ℕ → UInt8
  dirty : Bool

/-- A file of ramfs: the inode, its pages in the cache, and the blocks of `struct ramfs_inode`. -/
structure File where
  length : ℕ
  cached : ℕ → Option Page
  block : ℕ → Option (ℕ → UInt8)

namespace File

/-- A new file. -/
def empty : File := ⟨0, fun _ => none, fun _ => none⟩

/-- `_read_page`: a block that does not exist is allocated, and clear. -/
def readPage (f : File) (n : ℕ) : File × (ℕ → UInt8) :=
  match f.block n with
  | some data => (f, data)
  | none => ({ f with block := update f.block n (some fun _ => 0) }, fun _ => 0)

/-- `_write_page` -/
def writePage (f : File) (n : ℕ) (data : ℕ → UInt8) : File :=
  { f with block := update f.block n (some data) }

/-- What `_read_page` would deliver. -/
def stored (f : File) (n o : ℕ) : UInt8 := (f.block n).elim 0 (· o)

/-- `thispagelen` of `_inode_page_initialize` -/
def thispagelen (f : File) (n : ℕ) : ℕ :=
  let len := s64 (sub64 f.length (u64 (n * pageSize)))
  if len < 0 then 0 else if len > pageSize then pageSize else len.toNat

/-- The page with its first `len` bytes read, if there are any, and the rest cleared. -/
def load (f : File) (n len : ℕ) (stale : Bool) : File × Page :=
  let read := if len = 0 then (f, fun _ => 0) else f.readPage n
  let page : Page := ⟨fun o => if o < len then read.2 o else 0, stale⟩
  ({ read.1 with cached := update read.1.cached n (some page) }, page)

/-- `_inode_page_initialize` -/
def pageInitialize (f : File) (n : ℕ) (stale : Bool) : File × Page :=
  f.load n (f.thispagelen n) stale

/-- `inode_get_page` -/
def getPage (f : File) (n : ℕ) (stale : Bool) : File × Page :=
  match f.cached n with
  | some page => (f, page)
  | none => f.pageInitialize n stale

/-- The page leaves the cache, through `_inode_page_release`. -/
def evict (f : File) (n : ℕ) : File :=
  match f.cached n with
  | none => f
  | some page =>
    let f := if page.dirty then f.writePage n page.data else f
    { f with cached := update f.cached n none }

/-- What happens around an access to a page: the pages evicted before it is looked up, the dirty
flag of the object it is loaded to, and the other pages evicted while it is held. -/
structure Around where
  before : List ℕ
  stale : Bool
  during : List ℕ

/-- A page is looked up and held; `pagenum` is passed as an `int`. -/
def access (f : File) (pagenum : ℕ) (around : Around) : File × Page :=
  let n := sx32 pagenum
  let (f, page) := (around.before.foldl evict f).getPage n around.stale
  ((around.during.filter (· ≠ n)).foldl evict f, page)

/-- The part of a page that one round of a loop covers. -/
def this (pageoff len amount : ℕ) : ℕ :=
  if pageSize - pageoff > len - amount then len - amount else pageSize - pageoff

/-- The loop of `inode_do_read_data`; `around` is indexed by `amount`. -/
def readLoop (around : ℕ → Around) (len : ℕ) :
    ℕ → File → ℕ → ℕ → ℕ → List UInt8 → File × ℕ × List UInt8
  | 0, f, _, _, amount, buf => (f, amount, buf)
  | fuel + 1, f, pageoff, pagenum, amount, buf =>
    if amount < len then
      let thisread := this pageoff len amount
      let (f, page) := f.access pagenum (around amount)
      readLoop around len fuel f 0 (pagenum + 1) (amount + thisread)
        (buf ++ memread page.data pageoff thisread)
    else (f, amount, buf)

/-- `inode_do_read_data`: the number of bytes read, and the bytes. -/
def doReadData (f : File) (around : ℕ → Around) (off len : ℕ) : File × ℕ × List UInt8 :=
  let loop := fun len => readLoop around len len f (off % pageSize) (off / pageSize) 0 []
  if u64 (off + len) > f.length then
    if off ≥ f.length then (f, 0, []) else loop (f.length - off)
  else loop len

/-- The loop of `inode_do_write_data`; `buf` is what is left to write. -/
def writeLoop (around : ℕ → Around) (off len : ℕ) :
    ℕ → File → ℕ → ℕ → ℕ → List UInt8 → File × ℕ
  | 0, f, _, _, amount, _ => (f, amount)
  | fuel + 1, f, pageoff, pagenum, amount, buf =>
    if amount < len then
      let thiswrite := this pageoff len amount
      let (f, page) := f.access pagenum (around amount)
      let page := ⟨memcpy page.data pageoff (buf.take thiswrite), true⟩
      let f := { f with
        cached := update f.cached (sx32 pagenum) (some page)
        length := if u64 (thiswrite + off + amount) > f.length then u64 (thiswrite + off + amount)
          else f.length }
      writeLoop around off len fuel f 0 (pagenum + 1) (amount + thiswrite) (buf.drop thiswrite)
    else (f, amount)

/-- `inode_do_write_data`: the number of bytes written. -/
def doWriteData (f : File) (around : ℕ → Around) (off : ℕ) (buf : List UInt8) : File × ℕ :=
  writeLoop around off buf.length buf.length f (off % pageSize) (off / pageSize) 0 buf

/-- `file_truncate`, with the position of the open file. -/
def truncate (f : File) (pos len : ℕ) : File × ℕ :=
  ({ f with length := len }, if pos > len then len else pos)

end File

/-! ## Runs -/

/-- The operations on the file, each with the evictions that happen meanwhile. -/
inductive Event where
  | write (off : ℕ) (buf : List UInt8) (around : ℕ → File.Around)
  | read (off len : ℕ) (around : ℕ → File.Around)
  | truncate (pos len : ℕ)
  | evict (n : ℕ)

/-- The file after an operation. -/
def File.exec (f : File) : Event → File
  | .write off buf around => (f.doWriteData around off buf).1
  | .read off len around => (f.doReadData around off len).1
  | .truncate pos len => (f.truncate pos len).1
  | .evict n => f.evict n

/-- What the operations mean for the contents of the file. -/
def Event.apply (c : Contents UInt8) : Event → Contents UInt8
  | .write off buf _ => c.write off buf
  | .read _ _ _ => c
  | .truncate _ len => c.truncate len
  | .evict _ => c

/-- No page has a byte in the range from the length up to `n` that is not zero: not the page in the
cache, and, unless it is dirty or to be written, not its block either. -/
def File.GapZero (f : File) (n : ℕ) (written : Option ℕ) : Prop :=
  ∀ m o, o < pageSize → f.length ≤ m * pageSize + o → m * pageSize + o < n →
    (∀ page, f.cached m = some page → page.data o = 0) ∧
    (written ≠ some m → (∀ page, f.cached m = some page → page.dirty = false) → f.stored m o = 0)

/-- An operation that makes the file longer finds zeroes in the gap that it leaves. -/
def Event.Clean (f : File) : Event → Prop
  | .write off buf _ => buf ≠ [] → f.GapZero off (some (off / pageSize))
  | .truncate _ len => f.GapZero len none
  | _ => True

/-- The operation stays below `2 ^ 43`, where the page numbers are an `int`. -/
def Event.Bounded : Event → Prop
  | .write off buf _ => off + buf.length < 2 ^ 43
  | .read off len _ => off + len < 2 ^ 43
  | .truncate _ len => len < 2 ^ 43
  | .evict _ => True

instance (e : Event) : Decidable e.Bounded :=
  match e with
  | .write _ _ _ => inferInstanceAs (Decidable (_ < _))
  | .read _ _ _ => inferInstanceAs (Decidable (_ < _))
  | .truncate _ _ => inferInstanceAs (Decidable (_ < _))
  | .evict _ => inferInstanceAs (Decidable True)

/-- Whether the operation is a truncation. -/
def Event.truncates : Event → Bool
  | .truncate _ _ => true
  | _ => false

/-- A file, with the contents it should have. -/
structure State where
  file : File
  contents : Contents UInt8

/-- An operation on the file, and on its contents. -/
def State.exec (σ : State) (e : Event) : State := ⟨σ.file.exec e, e.apply σ.contents⟩

def Step (σ : State) (e : Event) (τ : State) : Prop := σ.exec e = τ

/-- A read returns the requested range of the contents, and a write all it was given. -/
def Correct (σ : State) : Event → Prop
  | .read off len around =>
    (σ.file.doReadData around off len).2 =
      ((σ.contents.read off len).length, σ.contents.read off len)
  | .write off buf around => (σ.file.doWriteData around off buf).2 = buf.length
  | _ => True

/-- A new file. -/
def State.initial : State := ⟨.empty, .empty⟩

end SeaKernel.PageCache
