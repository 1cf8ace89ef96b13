import LogOrigin.Files.Basic

-- The ways in which an operation on logs and sources can fail.

namespace LogOrigin

inductive Failure where
  | batchEmpty
  | oracleUnavailable (reason : Text)
  | unknownRecord (id : Nat)
  | unresolved (id : Nat)
  | cancelled
  | file (e : FileError)
  | settings
  deriving DecidableEq

namespace Failure

def recordName (id : Nat) : Text :=
  '#' :: Text.ofNat id

def message : Failure → Text
  | batchEmpty          => "log batch contains no usable records".toList
  | oracleUnavailable r => "oracle unavailable: ".toList ++ r
  | unknownRecord id    => "no record with id ".toList ++ recordName id
  | unresolved id       =>
    "record ".toList ++ recordName id ++ " has no resolved source location".toList
  | cancelled           => "operation cancelled".toList
  | file e              => "IO error: ".toList ++ e.message
  | settings            => "config error: invalid settings".toList

end Failure

end LogOrigin
