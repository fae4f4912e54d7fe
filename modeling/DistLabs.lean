import DistLabs.Kvraft.Checked
import DistLabs.Kvsrv.Linearizable
import DistLabs.Lib.ChronicleLog
import DistLabs.Lib.Stream
import DistLabs.Lib.Transition
import DistLabs.Mr.Completion
import DistLabs.Raft.Backup
import DistLabs.Raft.CatchUp
import DistLabs.Raft.FollowCommit
import DistLabs.Raft.Future
import DistLabs.Raft.Ranges
import DistLabs.Raft.Reorder
import DistLabs.Raft.Stream
import DistLabs.Shardctrler.OnRaft
import DistLabs.Shardkv.Linearizable
import DistLabs.Shardkv.OnRaft
import DistLabs.Shardkv.Progress
