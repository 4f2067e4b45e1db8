/-! The error numbers of Linux that the kernel module and the user library return. -/
namespace Shaper.Lib.Errno

def EBADF : Nat := 9
def ENOMEM : Nat := 12
def EFAULT : Nat := 14
def EINVAL : Nat := 22

end Shaper.Lib.Errno
