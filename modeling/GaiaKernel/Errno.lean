import Mathlib.Data.PNat.Basic

/-! # Error numbers

Those of kernel/utilities/errno.h that the modules return. The two that `read_dir_one_locked` can
fail with are positive by their type.
-/
namespace GaiaKernel

def ENOENT : ℤ := 2
def ESRCH : ℤ := 3
def EINTR : ℤ := 4
def EIO : ℕ+ := 5
def EBADF : ℤ := 9
def ECHILD : ℤ := 10
def EAGAIN : ℤ := 11
def ENOMEM : ℤ := 12
def EACCES : ℤ := 13
def EFAULT : ℤ := 14
def EBUSY : ℤ := 16
def ENODEV : ℤ := 19
def ENOTDIR : ℕ+ := 20
def EISDIR : ℤ := 21
def EINVAL : ℤ := 22
def ESPIPE : ℤ := 29
def EPIPE : ℤ := 32
def ENAMETOOLONG : ℤ := 36
def ENOSYS : ℤ := 38

end GaiaKernel
