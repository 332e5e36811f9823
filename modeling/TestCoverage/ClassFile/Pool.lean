import TestCoverage.ClassFile.Reader
import TestCoverage.Text.ModifiedUtf8

/-!
# The constant pool

The pool is an array of slots, numbered from one; slot zero exists and holds nothing. A
constant takes one slot, a `long` or `double` two, the second of which holds nothing. Only
texts and classes are kept (`Constant`), everything else is passed over.

The number of a slot has sixteen bits and wraps around, as the declared count has no room
for the second slot of a `long` in the last place.
-/

namespace TestCoverage.ClassFile

/-- What a slot of the pool holds. -/
inductive Constant where
  | text (bytes : Bytes)
  /-- A class, by the slot of its name. -/
  | «class» (name : Nat)
  | other
  | nothing
deriving DecidableEq, Repr

/-- The constant after a tag, and whether it takes two slots. -/
def Constant.read (tag : Nat) (slot : UInt16) : Reader (Constant × Bool) :=
  match tag with
  | 1 => do
    let length ← Reader.number 2
    return (.text (← Reader.take length), false)
  | 7 => do
    return (.class (← Reader.number 2), false)
  | 8 | 16 | 19 | 20 => do
    Reader.skip 2
    return (.other, false)
  | 15 => do
    Reader.skip 3
    return (.other, false)
  | 3 | 4 | 9 | 10 | 11 | 12 | 17 | 18 => do
    Reader.skip 4
    return (.other, false)
  | 5 | 6 => do
    Reader.skip 8
    return (.other, true)
  | _ => throw (.unknownConstant tag slot.toNat)

/-- The slots of a constant pool. -/
abbrev Pool := Array Constant

namespace Pool

/-- Reads constants while the number of the next slot is below the declared count. Every
constant takes at least one byte, so as many steps suffice as there are bytes left. -/
def readFrom (count : UInt16) : Nat → UInt16 → Pool → Reader Pool
  | steps, slot, pool =>
    if slot < count then do
      let tag ← Reader.number 1
      let (constant, wide) ← Constant.read tag slot
      match steps with
      | 0 => return pool
      | steps + 1 =>
        if wide then
          readFrom count steps (slot + 1 + 1) ((pool.push constant).push .nothing)
        else readFrom count steps (slot + 1) (pool.push constant)
    else return pool

def read : Reader Pool := do
  let count ← Reader.number 2
  readFrom (UInt16.ofNat count) (← get).rest.length 1 #[.nothing]

def text (pool : Pool) (slot : Nat) : Except Fault String :=
  match pool[slot]? with
  | some (.text bytes) =>
    match Text.ModifiedUtf8.decode bytes with
    | some text => .ok text
    | none => .error (.invalidText slot)
  | _ => .error (.notText slot)

def className (pool : Pool) (slot : Nat) : Except Fault String :=
  match pool[slot]? with
  | some (.class name) => pool.text name
  | _ => .error (.notClass slot)

end Pool

end TestCoverage.ClassFile
