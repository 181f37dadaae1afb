import Calculator.Text.Utf8

/-!
# Readers

The input as a series of reads. Each delivers some bytes, or fails, or is interrupted and tried
again; one that delivers no bytes reports the end of the input, and so does every read after the
last of the series. A read is made only when a byte is asked for and none is left of the reads
before it.
-/

namespace Calculator

/-- What one read comes to. -/
inductive Read where
  /-- It delivers these bytes. If there are none, the input has ended. -/
  | bytes (bs : List UInt8)
  | failure (reason : String)
  | interrupted
deriving DecidableEq

/-- How many bytes a read delivers. -/
def Read.size : Read → Nat
  | .bytes bs => bs.length
  | _ => 0

/-- How many bytes a series of reads delivers. -/
def Read.total : List Read → Nat
  | [] => 0
  | r :: rest => r.size + Read.total rest

structure Reader where
  /-- Bytes that were delivered and not yet handed on. -/
  buffered : List UInt8
  /-- Reads not yet made. -/
  upcoming : List Read
deriving DecidableEq

namespace Reader

/-- A reader that gives all its bytes in one read. -/
def ofBytes (bs : List UInt8) : Reader := ⟨[], [.bytes bs]⟩

def ofString (text : String) : Reader := ofBytes (Utf8.encode text)

/-- How many bytes are still to be handed on. -/
def size (r : Reader) : Nat := r.buffered.length + Read.total r.upcoming

/-- The first byte of a series of reads, made one after another until one is not interrupted. -/
def poll : List Read → EStateM.Result String Reader (Option UInt8)
  | [] => .ok none ⟨[], []⟩
  | .bytes [] :: rest => .ok none ⟨[], rest⟩
  | .bytes (b :: bs) :: rest => .ok (some b) ⟨bs, rest⟩
  | .failure reason :: rest => .error reason ⟨[], rest⟩
  | .interrupted :: rest => poll rest

/-- The next byte, or `none` at the end of the input. -/
def next (r : Reader) : EStateM.Result String Reader (Option UInt8) :=
  match r.buffered with
  | b :: bs => .ok (some b) { r with buffered := bs }
  | [] => poll r.upcoming

/-- No byte is lost or made up on the way. -/
theorem size_of_poll {reads : List Read} {b : Option UInt8} {r : Reader}
    (h : poll reads = .ok b r) : r.size + b.toList.length = Read.total reads := by
  fun_induction poll reads with
  | case1 => cases h; rfl
  | case2 rest => cases h; simp [size, Read.total, Read.size]
  | case3 a bs rest => cases h; simp [size, Read.total, Read.size]; omega
  | case4 reason rest => cases h
  | case5 rest ih => simpa [Read.total, Read.size] using ih h

theorem size_of_next {r r' : Reader} {b : Option UInt8} (h : r.next = .ok b r') :
    r'.size + b.toList.length = r.size := by
  unfold next at h
  split at h
  · next c bs hb => cases h; simp [size, hb]; omega
  · next hb => simpa [size, hb] using size_of_poll h

end Reader

end Calculator
