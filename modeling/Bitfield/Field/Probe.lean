import Bitfield.Field

/-!
A probe: a field without bits of its own, which keeps every request made to it, answers each reading
with the same byte, and refuses the requests below a given offset.
-/

namespace Bitfield

namespace Probe

inductive Request where
  | read (chunk : Chunk)
  | write (chunk : Chunk) (bits : Byte)
deriving DecidableEq

end Probe

/-- A field that keeps the requests made to it, oldest first. -/
structure Probe where
  width : Nat
  /-- The answer to every reading. -/
  reply : Byte
  /-- Requests with an offset below this one are refused. -/
  failBelow : Nat
  requests : List Probe.Request := []
deriving DecidableEq

namespace Probe

def note (p : Probe) (request : Request) : Probe :=
  { p with requests := p.requests ++ [request] }

/-- Refuses a request for a chunk whose offset is too low. -/
def check (p : Probe) (chunk : Chunk) : Outcome Unit :=
  if chunk.offset < p.failBelow then
    refuse (.intervalOutOfRange chunk.length chunk.offset p.width)
  else
    .ok ()

instance : WritableField Probe where
  width p := p.width
  read p chunk :=
    (do
      p.check chunk
      .ok p.reply, p.note (.read chunk))
  write p chunk bits := (p.check chunk, p.note (.write chunk bits))

end Probe

end Bitfield
