import EventLua.ObjectContainer
import EventLua.Protocol.Lengths
import EventLua.Client.PacketStream
import EventLua.Client.HostileStream
import EventLua.Channel.Disconnect
import EventLua.Redis.Chunking
import EventLua.Data.TornLog
import EventLua.Data.CrashSafety
import EventLua.Data.ReadYourWrites
import EventLua.Serialize.RoundTrip
import EventLua.TowerAoi.LiveIds
import EventLua.TowerAoi.ObjectLists
import EventLua.Scene.Following
import EventLua.ClientManager.Ids
import EventLua.Session.Output
import EventLua.Client.NoLateData
import EventLua.Client.LengthHeaders
import EventLua.LuaEv.RpcFraming
import EventLua.LuaEv.MalformedHeaders
import EventLua.LuaEv.DestroyedOnce
import EventLua.Worker.Fifo
import EventLua.Event.MutexSafe
import EventLua.Event.MutexMain
import EventLua.SceneManager.Counters
import EventLua.SceneManager.Departure
import EventLua.Login.Takeover
import EventLua.Agent.Sessions
import EventLua.WorldServer
import EventLua.ItemManager.Deletion
import EventLua.Class.Reload
import EventLua.Channel.Callbacks
import EventLua.Redis.Pipelining
import EventLua.Redis.OneChunk
import EventLua.Session.ByteQueue
import EventLua.Worker.SlotTable
import EventLua.Event.Pool
import EventLua.Login.Load
import EventLua.Filter.Trie
import EventLua.Filter.Dictionary
import EventLua.ItemManager.Relogin
import EventLua.Pathfinder.Search
import EventLua.Data.LruList
import EventLua.Subscriptions
import EventLua.DatabaseManager
import EventLua.ProtocolTable
import EventLua.MinHeap
import EventLua.Nav.TileIndex
import EventLua.Nav.Masks
import EventLua.ParserBuffers
import EventLua.ServerIds
import EventLua.Util
import EventLua.Pool
