import Mathlib.Tactic

/-!
# Error numbers

The error numbers of `errno.h` that the modelled calls return. A call that returns `-EPERM` in
the source returns `Except.error .eperm` here.
-/

namespace SeaKernel

/-- The error numbers the modelled calls return. -/
inductive Errno where
  | eperm
  | enoent
  | eintr
  | eio
  | enoexec
  | ebadf
  | eagain
  | eacces
  | eexist
  | exdev
  | enotdir
  | eisdir
  | enospc
  | epipe
  | enametoolong
  | enotempty
  | eloop
  | elibbad
  | enotconn
  | econnreset
  | einprogress
  | einval
  | emfile
  | erange
  | enetunreach
  | enotsup
  | eaddrinuse
  | enomem
  | efault
  deriving DecidableEq, Repr

end SeaKernel
