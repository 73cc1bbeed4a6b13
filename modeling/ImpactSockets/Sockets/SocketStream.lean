import ImpactSockets.Library.Transition
import ImpactSockets.Utils.AbnfOps

/-! The output side of a stream over a socket, `sockets/socketstream.cpp`: the
put area that `std::streambuf` fills, and the flushes that hand it to the
socket. -/
namespace ImpactSockets.SocketStream

def eof : Int := -1

def success : Int := 0

/-- What `basic_socket::send` does with the bytes it is given: it accepts some
number of them, or throws. -/
abbrev Send : Type := Bytes → Option Nat

/-- `m_stream_buffer_size_`, an `unsigned int`. -/
def streamBufferSize (bufferSize : UInt32) : UInt32 := if bufferSize < 256 then 256 else bufferSize

/-- The size of the array behind the put area. The sum is an `unsigned int`. -/
def allocated (bufferSize : UInt32) : Nat := (streamBufferSize bufferSize + 1).toNat

/-- `epptr() - pbase()`. -/
def capacity (bufferSize : UInt32) : Nat := (streamBufferSize bufferSize).toNat - 1

/-- A stream whose `pptr()` is never past its `epptr()`, and what has been
passed to `send` and accepted by it. -/
structure Stream (bufferSize : UInt32) where
  area : Bytes
  fits : area.length ≤ capacity bufferSize
  handle : Bool
  hangup : Bool
  badbit : Bool
  passed : List Bytes
  accepted : Bytes

theorem nil_fits (bufferSize : UInt32) : ([] : Bytes).length ≤ capacity bufferSize := Nat.zero_le _

theorem Stream.concat_fits {bufferSize : UInt32} (s : Stream bufferSize) (c : UInt8)
    (h : s.area.length < capacity bufferSize) : (s.area ++ [c]).length ≤ capacity bufferSize := by
  rw [List.length_append]
  exact h

/-- `_M_initialize`, for a stream over an open socket. -/
def initialize_ (bufferSize : UInt32) : Stream bufferSize where
  area := []
  fits := nil_fits bufferSize
  handle := true
  hangup := false
  badbit := false
  passed := []
  accepted := []

/-- The conversion of a pointer difference to `int`. -/
def toInt (difference : Nat) : Int :=
  let low : Nat := difference % 2 ^ 32
  if low < 2 ^ 31 then low else (low : Int) - 2 ^ 32

variable {bufferSize : UInt32}

/-- `_M_write_base`: what it returns and the stream it leaves. `none` is a call
of `send` with a negative length, which reads outside the put area. -/
def writeBase (c : Int) (send : Send) (s : Stream bufferSize) : Option (Int × Stream bufferSize) :=
  if ¬ s.handle then some (eof, s)
  else if s.hangup then some (eof, { s with badbit := true })
  else
    let length := toInt s.area.length
    if length < 0 then none
    else
      let bytes := s.area.take length.toNat
      match send bytes with
      | none => some (eof, { s with passed := s.passed ++ [bytes] })
      | some count => some (c, { s with
          area := []
          fits := nil_fits bufferSize
          passed := s.passed ++ [bytes]
          accepted := s.accepted ++ bytes.take count })

def sync (send : Send) (s : Stream bufferSize) : Option (Int × Stream bufferSize) :=
  writeBase success send s

def overflow (c : Int) (send : Send) (s : Stream bufferSize) : Option (Int × Stream bufferSize) :=
  writeBase c send s

/-- `std::streambuf::sputc`. `none` is a store outside the array. -/
def sputc (c : UInt8) (send : Send) (s : Stream bufferSize) : Option (Int × Stream bufferSize) :=
  if h : s.area.length < capacity bufferSize then
    if s.area.length < allocated bufferSize then
      some (c.toNat, { s with
        area := s.area ++ [c]
        fits := s.concat_fits c h })
    else none
  else overflow c.toNat send s

/-- A call by the user of the stream, and how `send` behaves during it. -/
inductive Action where
  | put (c : UInt8) (send : Send)
  | sync (send : Send)

def step (s : Stream bufferSize) : Action → Option (Stream bufferSize)
  | .put c send => (sputc c send s).map Prod.snd
  | .sync send => (sync send s).map Prod.snd

end ImpactSockets.SocketStream
