import FrameNotation.Proofs.Engine.Answering

namespace FrameNotation

variable {engine missed : Engine} {key : Str} {fault : Fault}
variable {model? : Option Model} {request : Request}

namespace Session

variable {session : Session}

end Session

end FrameNotation
