import EngineBridge.Engine.Call
import EngineBridge.Text.Utf8

/-! An engine without requests. It serves to exercise the queue and the tick alone: it routes nothing
    here, refuses to make requests, and lets every peer be stored. -/

namespace EngineBridge

/-- The code with which the idle engine refuses. -/
def Engine.idleRefusal : EngineError := ⟨-1⟩

/-- The engine without requests. -/
def Engine.idle {δ ω : Type} : Engine δ ω := fun c w =>
  (match c with
    | .location _ => .ok none
    | .method _ => .ok 0
    | .uri _ => .ok (Utf8.encode "/")
    | .args _ => .ok none
    | .headers _ => .ok []
    | .readBody _ => .ok .complete
    | .body _ => .ok []
    | .mainOf req => .ok req
    | .addHeader _ _ _ | .sendHeader _ | .output _ _ | .setPeer _ _ => .ok (.ok ())
    | .subrequest _ _ _ | .newAnchor _ => .ok (.error idleRefusal)
    | .runPosted _ => .ok []
    | .log _ _ | .setStatus _ _ | .setContentLength _ _ | .setHeaderOnly _ | .finalize _ _ => .ok (),
  w)

end EngineBridge
