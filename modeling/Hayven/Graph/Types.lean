import Hayven.Lib.Bytes
/-!
# Graph records

`daemon/src/graph/types.ts`, and the node and edge records that the native parser
streams (`native/src/proto.rs`). Languages, spans, hashes and clocks travel with a
node and are never read by what is modelled here: they are left out.
-/
open Hayven.Lib

namespace Hayven.Graph

inductive NodeKind where
  | function | method
  | class : NodeKind
  | struct | interface | module | constant | type | trait | enum | other
deriving DecidableEq

inductive EdgeKind where
  | staticCall | traceCall | import | inherits | implements | references | other
deriving DecidableEq

/-- A definition as the parser reports it. -/
structure NodeRecord where
  file : JsString
  name : JsString
  kind : NodeKind
  qualifiedName : JsString
deriving DecidableEq

structure GraphNode where
  id : JsString
  name : JsString
  qualifiedName : JsString
  kind : NodeKind
  file : JsString
deriving DecidableEq

/-- `import { imported as local }`. -/
structure ImportAliasPair where
  localName : JsString
  imported : JsString
deriving DecidableEq

/-- An edge before its ends are resolved. The optional lists are empty where the
parser leaves them out; the ingest passes no empty one on. -/
structure RawEdge where
  srcFile : JsString
  srcName : JsString
  dstName : JsString
  kind : EdgeKind
  receiver : Option JsString := none
  receiverChain : List JsString := []
  localBindings : List JsString := []
  importAliases : List ImportAliasPair := []
  weight : Nat := 1
  line : Option Nat := none
  col : Option Nat := none
deriving DecidableEq

structure GraphEdge where
  src : JsString
  dst : JsString
  kind : EdgeKind
  weight : Nat
deriving DecidableEq

end Hayven.Graph
