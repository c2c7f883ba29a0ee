import Dbms18.Common.Bitmap
import Dbms18.Common.List
import Dbms18.Common.MessageBuffer
import Dbms18.Common.RelationTree
import Dbms18.Executor.ConcurrentScan
import Dbms18.Executor.CopyRoundTrip
import Dbms18.Executor.Keeps
import Dbms18.Executor.ParenthesisedJoin
import Dbms18.Executor.Projection
import Dbms18.Executor.SelectErrors
import Dbms18.Executor.TwoRows
import Dbms18.Parser.ParserContext
import Dbms18.Parser.StringLiteral
import Dbms18.Parser.UpdateStmt
import Dbms18.Realizer.Alias
import Dbms18.Realizer.Compilation
import Dbms18.Realizer.CreateColumns
import Dbms18.Realizer.FromClause
import Dbms18.Realizer.HandleDiscipline
import Dbms18.Realizer.InsertAgreement
import Dbms18.Realizer.IntegerLiteral
import Dbms18.Realizer.OnScoping
import Dbms18.Realizer.SelectStar
import Dbms18.Realizer.SelectTable
import Dbms18.Realizer.Soundness
import Dbms18.Rrportal.CopyIn
import Dbms18.Rrportal.CopyOut
import Dbms18.Rrportal.DataRow
import Dbms18.Rrportal.ParameterStatus
import Dbms18.Rrportal.Session
import Dbms18.Rrportal.StartupSafety
import Dbms18.Storage.BackwardIteration
import Dbms18.Storage.CatalogReopen
import Dbms18.Storage.Lifecycle
import Dbms18.Storage.SharedWrites
import Dbms18.LevelDb.Coding
import Dbms18.LevelDb.DbFormat
import Dbms18.LevelDb.DbImpl
import Dbms18.LevelDb.DbIter
import Dbms18.LevelDb.DbIterWalks
import Dbms18.LevelDb.MemTable
import Dbms18.LevelDb.Merger
import Dbms18.LevelDb.MergerWalks
import Dbms18.LevelDb.SkipList
import Dbms18.LevelDb.SkipListInsert
import Dbms18.LevelDb.SkipListReaders
import Dbms18.LevelDb.Snapshots
import Dbms18.LevelDb.WriteBatch
import Dbms18.LevelDb.WriteQueue
