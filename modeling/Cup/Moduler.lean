/-
  Modules (`src/moduler.c`): the front end of `parse`, which reads the statements of a text into
  one block up to the end of the text.
-/
import Cup.Parser

namespace Cup

open Lib (Stop Run)

/-- The loop of `parse` over the statements; `data[1]` counts those with nodes. -/
def moduleLoop (host : Host) : Nat → Nodes → Comp Nodes
  | 0, _ => Run.stop .fuel
  | n + 1, nodes => do
    if (← Run.get).token = .tEof then pure nodes
    else
      let block ← statement host
      let nodes ← pushStatement nodes block
      moduleLoop host n nodes

/-- The front end of `parse`: the text `buf` becomes the input. -/
def parseNodes (host : Host) (buf : Bytes) : Comp Nodes := do
  let start : Node2 := ⟨⟨.nBlock, 1, 1⟩, .value 0⟩
  Run.modify fun s => { s with priv := none, input := buf, nodes := start }
  let nodes ← pushNode2 {} start
  getToken false
  moduleLoop host (buf.length + 1) nodes

end Cup
