import Atlasdb.StepRun
import Atlasdb.ArrayWindow
import Atlasdb.SizeT
import Atlasdb.Buffer
import Atlasdb.Decimal
import Atlasdb.Message
import Atlasdb.TaskRunner
import Atlasdb.ConnectionPool
import Atlasdb.TcpServer
import Atlasdb.SetMerge
import Atlasdb.Storage
import Atlasdb.Stomanip
import Atlasdb.DepthFirst
import Atlasdb.Ir
import Atlasdb.Processor
import Atlasdb.Engine
import Atlasdb.Evaluation
import Atlasdb.Algorithm
import Atlasdb.Dispatcher
import Atlasdb.BufferReserve
import Atlasdb.BufferStream
import Atlasdb.BufferRecords
import Atlasdb.MessageHeader
import Atlasdb.TcpClient
import Atlasdb.WeakOrder
import Atlasdb.BtreeSearch
import Atlasdb.BtreeNode
import Atlasdb.BtreeContent
import Atlasdb.BtreeIterator
import Atlasdb.BtreeInvariant
import Atlasdb.BtreeLocate
import Atlasdb.BtreeWalk
import Atlasdb.BtreeInsert
import Atlasdb.BtreeErase
import Atlasdb.KeyedList
import Atlasdb.BtreeUnique
import Atlasdb.BtreeMulti
import Atlasdb.BtreeVerify
import Atlasdb.BtreeContainer
import Atlasdb.BtreeRun
