import MeikoCs2.Lookups
import MeikoCs2.Cancon

/-! canctrl: the packet it makes of its arguments. -/

namespace MeikoCs2

variable (canhosts canobj : Option (List Record)) (nodeid : BitVec 32) (stack : CanPacket)
  (req : CanHeaderExt) (reqData : CanDat) (prog tp obj host : List Char) (data : Option (List Char))

variable {canhosts canobj nodeid stack req reqData prog tp obj host data}

end MeikoCs2
