import LambdaExecutor.Components.Registry
import LambdaExecutor.Database.Progress
import LambdaExecutor.Engine.Confinement
import LambdaExecutor.Engine.ErrorReports
import LambdaExecutor.Engine.OutOfMemory
import LambdaExecutor.Engine.RequestKept
import LambdaExecutor.Engine.ScriptApi
import LambdaExecutor.Engine.StackCapacity
import LambdaExecutor.Engine.Teardown
import LambdaExecutor.Engine.Timeout
import LambdaExecutor.Execution.Refusals
import LambdaExecutor.Handlers.RemoteCalls
import LambdaExecutor.Http.Urls
import LambdaExecutor.Kv.SharedValues
import LambdaExecutor.Kv.StoredIntegers
import LambdaExecutor.Kv.Writers
import LambdaExecutor.Lua.WrittenAgain
import LambdaExecutor.Scripts.Freshness
import LambdaExecutor.Scripts.Histories
import LambdaExecutor.Scripts.Moments
