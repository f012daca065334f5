/-! # Errors

Why an operation on a patch, or a run over it, fails.
-/

namespace Patchbay

/-- Why an operation fails. -/
inductive Error where
  /-- A kind is used that is not declared. -/
  | kindNotFound (kind : String)
  /-- A kind with control ports is declared where control is not supported. -/
  | flowNotSupported (kind : String)
  /-- A run is set up where control is not supported. -/
  | flowDisabled
  /-- A run is to evaluate a node that does not exist. -/
  | nodeNotFound (node : String)
  /-- A value is needed from a node with control ports that has not been reached yet. -/
  | notRun (node : String)
  /-- A value is needed from a node that is being evaluated. -/
  | dataCycle (node : String)
  /-- The calculation of a node reports a failure. -/
  | calculation (node message : String)
  /-- A text is no snapshot. The reason is given by the reader, in its own words. -/
  | unreadable (reason : String)
  /-- Bytes cannot be unpacked, for a reason given by the unpacker. -/
  | unpackable (reason : String)
  deriving Repr, DecidableEq

namespace Error

/-- Whether nodes were evaluated in an impossible order. -/
def isOrderViolation : Error → Bool
  | notRun _ | dataCycle _ => true
  | _ => false

/-- The wording of an error. -/
def message : Error → String
  | kindNotFound kind => "Node type not found: " ++ kind
  | flowNotSupported kind => "Flow control is not enabled on this tree (node type '" ++ kind ++ "')"
  | flowDisabled => "Flow control is not enabled on this tree"
  | nodeNotFound node => "Node not found: " ++ node
  | notRun node => "Node has not been run yet: " ++ node
  | dataCycle node => "Data dependency cycle through node " ++ node
  | calculation node message => "Node " ++ node ++ " failed: " ++ message
  | unreadable reason => "Serialization error: " ++ reason
  | unpackable reason => "Compression error: " ++ reason

end Error

end Patchbay
