import Mathlib

/-!
# Octets and the ways a call can fail

`std::string` and `std::vector<std::byte>` are both lists of octets here. A C++ call that does
not return ends in a `Fault`: an exception, a failed `assert`, `std::exit`, or a store into memory
that belongs to something else, behind which nothing is known of the process.
-/

namespace Rite

/-- `std::byte`, `uint8_t` and the `char` of a `std::string`. -/
abbrev Octet := UInt8

/-- `std::vector<std::byte>`, `std::string` and the spans over them. -/
abbrev Octets := List Octet

/-- The octets of a string literal. -/
def octets (s : String) : Octets := s.toUTF8.data.toList

/-- `h2::frame_state`. -/
inductive FrameState
  | insufficientData | invalid | tooBig
  deriving DecidableEq

namespace Hpack

/-- `h2::hpack::error`. `done` and `more` are not errors, but share the type. -/
inductive Error
  | unknownHeader | sizeUpdate | invalid | done | more
  deriving DecidableEq

end Hpack

/-- The exceptions derived from `std::exception` that the code raises, with their text. -/
inductive StdException
  | invalidArgument (what : String)
  | lengthError (what : String)
  | runtimeError (what : String)
  deriving DecidableEq

/-- How a call ends when it does not return. -/
inductive Fault
  /-- `throw h2::hpack::error::…` -/
  | hpack (e : Hpack.Error)
  /-- `throw h2::frame_state::…` -/
  | frameState (e : FrameState)
  /-- `throw` of a `std::exception`. -/
  | std (e : StdException)
  /-- A failed `assert`. -/
  | assertion
  /-- `std::exit(1)`. -/
  | exit
  /-- A store past the end of a variable. -/
  | overrun
  deriving DecidableEq

end Rite
