import Mylib.Spec.Protocol.DataPacket

/-!
# `Mylib.Spec.File.FileUtil`: writing to a file descriptor

`WriteFileDescriptor` of `public/file/file_util.cc`. What the system call `write` answers is a
parameter: its result as `HANDLER_EINTR` returns it, for the call with this number and a request
of so many bytes.
-/

set_option autoImplicit false

namespace Mylib.Spec.File

open Mylib.Spec.Protocol (Str int32 sizeT)

/-- The answers of `write`. -/
abbrev Writes := (call : Nat) → (request : Nat) → Int

/-- The loop, for at most `fuel` rounds, with the bytes that were written so far: the result,
and the bytes at the end. `none` where it is still running. -/
def writeLoop (write : Writes) (data : Str) (size : Int) : (fuel call : Nat) →
    (bytesWrittenPartial bytesWrittenTotal : Int) → (file : Str) → Option (Int × Str)
  | 0, _, _, _, _ => none
  | fuel + 1, call, bytesWrittenPartial, bytesWrittenTotal, file =>
    if bytesWrittenPartial < size then
      let bytesWrittenPartial := write call (sizeT (size - bytesWrittenTotal))
      if bytesWrittenPartial < 0 then some (-1, file)
      else
        writeLoop write data size fuel (call + 1) bytesWrittenPartial
          (bytesWrittenTotal + bytesWrittenPartial)
          (file ++ (data.drop bytesWrittenTotal.toNat).take bytesWrittenPartial.toNat)
    else some (int32 bytesWrittenTotal, file)

/-- `WriteFileDescriptor` of the `size` bytes at `data`. -/
def writeFileDescriptor (write : Writes) (fuel : Nat) (data : Str) : Option (Int × Str) :=
  writeLoop write data data.length fuel 0 0 0 []

end Mylib.Spec.File
