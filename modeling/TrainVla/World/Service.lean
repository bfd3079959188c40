import TrainVla.World.Calls
import TrainVla.Interaction.Program

/-! Programs over the calls of this system, and the functions of the libraries they use. -/
namespace TrainVla

open Interaction

abbrev Service (α : Type) := Prog Call Call.Resp Exc α

abbrev perform (c : Call) : Service c.Resp := Prog.perform c

/-- The pure library functions the services call: `zipfile`, `json`, `datetime`, `bcrypt`. -/
structure Library where
  zipInfolist : Bytes → Except Exc (List ZipEntryMeta)
  zipRead : Bytes → String → Except Exc Bytes
  jsonLoads : Bytes → Except Exc Json
  fromIsoformat : String → Option ℤ
  hashpw : Bytes → String → String
  checkpw : Bytes → String → Bool

end TrainVla
