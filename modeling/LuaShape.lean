import LuaShape.Main
import LuaShape.Proofs.Chunk.Lines
import LuaShape.Proofs.Chunk.Nesting
import LuaShape.Proofs.Chunk.Precedence
import LuaShape.Proofs.Chunk.StringLiterals
import LuaShape.Proofs.Chunk.Termination
import LuaShape.Proofs.Inference.BaseChain
import LuaShape.Proofs.Inference.Constraints
import LuaShape.Proofs.Inference.Copies
import LuaShape.Proofs.Inference.FieldKeys
import LuaShape.Proofs.Inference.Levels
import LuaShape.Proofs.Inference.OperatorTypes
import LuaShape.Proofs.Inference.SingleCount
import LuaShape.Proofs.Inference.Unshared
import LuaShape.Proofs.LoadOrder.DepthFirst
import LuaShape.Proofs.LoadOrder.LoadTimeNames
import LuaShape.Proofs.LoadOrder.Lookup
import LuaShape.Proofs.LoadOrder.Overtaking
import LuaShape.Proofs.LoadOrder.Reports
import LuaShape.Proofs.Project.Buckets
import LuaShape.Proofs.Project.ReadOrder
import LuaShape.Proofs.Project.RequireLookup
import LuaShape.Proofs.Summary.ListedOnce
import LuaShape.Proofs.Summary.Members
