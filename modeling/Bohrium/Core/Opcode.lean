import Mathlib.Data.Nat.Notation

/-! # Element types and opcodes

The tables of `core/codegen/types.json` and `core/codegen/opcodes.json`, and the predicates that
`gen_opcodes.py` generates from the second one (`bh_operands`, `bh_opcode_is_system`, ...). An
opcode outside the table is an extension method. -/
namespace Bohrium
set_option autoImplicit false

/-- The element types of an array. `BH_R123` types only the constant of `BH_RANDOM` and
`BH_UNKNOWN` no array, so neither is one of them. -/
inductive BhType
  | bool | int8 | int16 | int32 | int64 | uint8 | uint16 | uint32 | uint64
  | float32 | float64 | complex64 | complex128
  deriving DecidableEq, Repr

/-- `bh_type_size`, in bytes. -/
def bhTypeSize : BhType → ℕ
  | .bool | .int8 | .uint8 => 1
  | .int16 | .uint16 => 2
  | .int32 | .uint32 | .float32 => 4
  | .int64 | .uint64 | .float64 | .complex64 => 8
  | .complex128 => 16

/-- `bh_opcode`; `ext id` is an extension method. -/
inductive BhOpcode
  | add | subtract | multiply | divide | power | absolute | greater | greaterEqual | less
  | lessEqual | equal | notEqual | logicalAnd | logicalOr | logicalXor | logicalNot | maximum
  | minimum | bitwiseAnd | bitwiseOr | bitwiseXor | invert | leftShift | rightShift | cos | sin
  | tan | cosh | sinh | tanh | arcsin | arccos | arctan | arcsinh | arccosh | arctanh | arctan2
  | exp | exp2 | expm1 | log | log2 | log10 | log1p | sqrt | ceil | trunc | floor | rint | mod
  | isnan | isinf | identity | discard | free | sync | none | addReduce | multiplyReduce
  | minimumReduce | maximumReduce | logicalAndReduce | bitwiseAndReduce | logicalOrReduce
  | bitwiseOrReduce | logicalXorReduce | bitwiseXorReduce | random | range | real | imag
  | addAccumulate | multiplyAccumulate | sign | matmul | gather | scatter | ext (id : ℕ)
  deriving DecidableEq, Repr

/-- Number of operands of an operation; extension methods have three. -/
def bhOperands : BhOpcode → ℕ
  | .none => 0
  | .discard | .free | .sync | .range => 1
  | .absolute | .logicalNot | .invert | .cos | .sin | .tan | .cosh | .sinh | .tanh | .arcsin
  | .arccos | .arctan | .arcsinh | .arccosh | .arctanh | .exp | .exp2 | .expm1 | .log | .log2
  | .log10 | .log1p | .sqrt | .ceil | .trunc | .floor | .rint | .isnan | .isinf | .identity
  | .random | .real | .imag | .sign => 2
  | _ => 3

/-- The system operations; they touch the state of an array, never its elements. -/
def bhOpcodeIsSystem : BhOpcode → Bool
  | .discard | .free | .sync | .none => true
  | _ => false

/-- The elementwise operations. The table lists `BH_NONE` among them. -/
def bhOpcodeIsElementwise : BhOpcode → Bool
  | .discard | .free | .sync | .addReduce | .multiplyReduce | .minimumReduce | .maximumReduce
  | .logicalAndReduce | .bitwiseAndReduce | .logicalOrReduce | .bitwiseOrReduce
  | .logicalXorReduce | .bitwiseXorReduce | .random | .range | .addAccumulate
  | .multiplyAccumulate | .matmul | .gather | .scatter => false
  | .ext _ => false
  | _ => true

/-- The reductions. -/
def bhOpcodeIsReduction : BhOpcode → Bool
  | .addReduce | .multiplyReduce | .minimumReduce | .maximumReduce | .logicalAndReduce
  | .bitwiseAndReduce | .logicalOrReduce | .bitwiseOrReduce | .logicalXorReduce
  | .bitwiseXorReduce => true
  | _ => false

/-- The accumulates (prefix scans). -/
def bhOpcodeIsAccumulate : BhOpcode → Bool
  | .addAccumulate | .multiplyAccumulate => true
  | _ => false

/-- A sweep is a reduction or an accumulate. -/
def bhOpcodeIsSweep (opcode : BhOpcode) : Bool :=
  bhOpcodeIsReduction opcode || bhOpcodeIsAccumulate opcode

end Bohrium
