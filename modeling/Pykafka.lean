import Pykafka.Partition
import Pykafka.Assignment
import Pykafka.Coordinator
import Pykafka.Member
import Pykafka.Frame
import Pykafka.System
import Pykafka.FrameStep
import Pykafka.Run
import Pykafka.Effect
import Pykafka.Ownership
import Pykafka.Worker
import Pykafka.Frames
import Pykafka.Alone
import Pykafka.Stop
import Pykafka.Rebalance
import Pykafka.Idempotence
import Pykafka.Stack
import Pykafka.Claims
import Pykafka.Consumer
import Pykafka.Failure
import Pykafka.Claimed
import Pykafka.Lock
import Pykafka.Records
import Pykafka.Start
import Pykafka.Consume
