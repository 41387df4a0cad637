/-!
# The built-in program

It counts to ten in a loop, stores the count, and calls a subroutine that loads and checks it. It
ends with zero in the accumulator when the check passed.
-/

namespace Monitor386.Program

def builtIn : List UInt8 := [
  0xbc, 0x00, 0x00, 0x10, 0x00, -- 100000: mov $0x100000,%esp
  0xb8, 0x00, 0x00, 0x00, 0x00, -- 100005: mov $0x0,%eax
  0xb9, 0x0a, 0x00, 0x00, 0x00, -- 10000a: mov $0xa,%ecx
  0x40,                         -- 10000f: inc %eax
  0x49,                         -- 100010: dec %ecx
  0x75, 0xfc,                   -- 100011: jne 10000f
  0x89, 0xc2,                   -- 100013: mov %eax,%edx
  0xa3, 0x00, 0x20, 0x00, 0x00, -- 100015: mov %eax,0x2000
  0xb8, 0xff, 0xff, 0xff, 0xff, -- 10001a: mov $0xffffffff,%eax
  0xe8, 0x03, 0x00, 0x00, 0x00, -- 10001f: call 100027
  0xd6,                         -- 100024: end of the program
  0xeb, 0xfe,                   -- 100025: jmp 100025
  0xa1, 0x00, 0x20, 0x00, 0x00, -- 100027: mov 0x2000,%eax
  0x3d, 0x0a, 0x00, 0x00, 0x00, -- 10002c: cmp $0xa,%eax
  0x75, 0x05,                   -- 100031: jne 100038
  0x2d, 0x0a, 0x00, 0x00, 0x00, -- 100033: sub $0xa,%eax
  0xc3]                         -- 100038: ret

end Monitor386.Program
