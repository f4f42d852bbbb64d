import LuaGraph.Alike
import LuaGraph.Buffer
import LuaGraph.Chunk.Run
import LuaGraph.Data
import LuaGraph.Inline
import LuaGraph.Proofs.RoundTrip
import LuaGraph.Save
import LuaGraph.Proofs.Chunk.Literals
import LuaGraph.Proofs.Blocks
import LuaGraph.Proofs.Completeness
import LuaGraph.Proofs.Graph.Order
import LuaGraph.Proofs.InlineLoading
import LuaGraph.Proofs.Determinism
import LuaGraph.Proofs.Alike
import LuaGraph.Proofs.Chunk.Commas
import LuaGraph.Proofs.Chunk.Costs
import LuaGraph.Proofs.Layout
import LuaGraph.Proofs.Alike.Runs
import LuaGraph.Proofs.Alike.Complete
import LuaGraph.Proofs.Reloading
import LuaGraph.Proofs.Alike.Symmetry
import LuaGraph.Proofs.Graph.Depth
import LuaGraph.Proofs.Graph.Preorder
import LuaGraph.Proofs.Sharing
import LuaGraph.Proofs.Chunk.Nesting
import LuaGraph.Proofs.DepthLimit
import LuaGraph.Proofs.Table.History
import LuaGraph.Proofs.Order.Entries
import LuaGraph.Proofs.Order.Laws
import LuaGraph.Proofs.Order.Exact
import LuaGraph.Proofs.Chunk.Boundaries
import LuaGraph.Proofs.NumberChunks
import LuaGraph.Proofs.Chunk.Positions
import LuaGraph.Proofs.SingleLine
import LuaGraph.Proofs.Chunk.Loops
import LuaGraph.Proofs.Chunk.Precedence
import LuaGraph.Proofs.Data.Trees
import LuaGraph.Proofs.Data.Tags
import LuaGraph.Proofs.Signing
import LuaGraph.Proofs.Descent.Balance
import LuaGraph.Proofs.Names
import LuaGraph.Proofs.Scoping
import LuaGraph.Proofs.Graph.Calm
