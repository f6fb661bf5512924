import Mathlib.Data.Int.Notation

/-! The payload of a data packet. -/
namespace Mio.LibMio

/-- `mio_transducer_value_type_t`. -/
inductive TransducerValueType where
  | value
  | setValue
deriving DecidableEq

/-- `mio_transducer_value_t`, as `mio_transducer_value_new` makes it. -/
@[ext] structure TransducerValue where
  type : TransducerValueType := .value
  id : ℤ := 0
  name : Option (List Char) := none
  typedValue : Option (List Char) := none
  rawValue : Option (List Char) := none
  timestamp : Option (List Char) := none
deriving DecidableEq

/-- `mio_data_t`, as `mio_data_new` makes it. -/
structure Data where
  event : Option (List Char) := none
  numTransducers : ℤ := 0
  transducers : List TransducerValue := []
deriving DecidableEq

end Mio.LibMio
