import Doctrina.Fault
/-!
# The byte stack of stack.c

`data` is the flexible array member, `cap` bytes long.  Memory for the header and
these bytes is taken to be available.
-/

namespace Doctrina.Stack

structure StackT where
  cap : UInt64
  top : UInt64
  data : List UInt8

def stackCreate (cap : UInt64) : StackT := ⟨cap, 0, List.replicate cap.toNat 0⟩

/-- Returns 0 when the bytes were pushed and -1 when they were refused; a push
that would fill the stack is refused. -/
def stackPush (self : StackT) (data : List UInt8) (size : UInt64) :
    Except Fault (StackT × Int) :=
  if size + self.top ≥ self.cap then .ok (self, -1)
  else do
    let block ← memcpyAt self.data self.top.toNat (data.take size.toNat)
    return ({ self with data := block, top := self.top + size }, 0)

def stackPeek (self : StackT) (size : UInt64) : Except Fault (Option (List UInt8)) :=
  if size > self.top then .ok none
  else (bytesAt self.data (self.top - size).toNat size.toNat).map some

/-- Returns the popped bytes, `none` for the NULL of too small a stack. -/
def stackPop (self : StackT) (size : UInt64) :
    Except Fault (StackT × Option (List UInt8)) :=
  if size > self.top then .ok (self, none)
  else do
    let top := self.top - size
    let data ← bytesAt self.data top.toNat size.toNat
    return ({ self with top }, some data)

end Doctrina.Stack
