import Serverlessd.Runtime.Worker.MonitorLaws
import Serverlessd.Runtime.Worker.Settled
import Serverlessd.Runtime.Worker.Monitored
import Serverlessd.Runtime.Worker.InitLaws
import Serverlessd.Runtime.Worker.Fetches
import Serverlessd.Runtime.Worker.Supervised
import Serverlessd.Runtime.Worker.Owners
import Serverlessd.Runtime.Pod.Allocator
import Serverlessd.Runtime.Serverless.Routing
import Serverlessd.Runtime.Serverless.Capacity
import Serverlessd.Runtime.Serverless.Linear
import Serverlessd.Runtime.Serverless.Uploads
import Serverlessd.Runtime.Serverless.AppLaws
import Serverlessd.Runtime.Serverless.Admission
import Serverlessd.Runtime.Deadlock
import Serverlessd.Main.Upload
import Serverlessd.Main.StartOne
import Serverlessd.Lib.Fair
import Serverlessd.Runtime.Worker.Exceptions
import Serverlessd.Runtime.Worker.Limits
import Serverlessd.Runtime.Pod.Halt
import Serverlessd.Lib.Counted
import Serverlessd.Runtime.Worker.Lifetime
import Serverlessd.Runtime.Worker.Simulated
import Serverlessd.Intrinsics.Fetch
import Serverlessd.Intrinsics.FetchLaws
import Serverlessd.Intrinsics.FetchRequests
import Serverlessd.Runtime.Serverless.FailedUploads
import Serverlessd.Runtime.Serverless.Guarded
import Serverlessd.Runtime.Worker.Registry
import Serverlessd.Runtime.Progress.Shutdown
import Serverlessd.Runtime.Serverless.Isolation
import Serverlessd.Runtime.Serverless.Arrival
import Serverlessd.Main.Sessions
import Serverlessd.Runtime.Serverless.Origins
import Serverlessd.Runtime.Progress.Responses
import Serverlessd.Runtime.Serverless.Service
