import Img2Web.Interaction.Program
import Img2Web.Interaction.Pool
import Img2Web.Text.Bytes
import Img2Web.Text.Extraction
import Img2Web.Text.Base64
import Img2Web.Cql.Lexer
import Img2Web.Cql.Literal
import Img2Web.Json.StringBody
import Img2Web.Json.Document
import Img2Web.Model.Query
import Img2Web.Model.Store
import Img2Web.Model.Client
import Img2Web.Model.Handlers
import Img2Web.Statements.UserList
import Img2Web.Statements.Integrity
import Img2Web.Requests.TopArgument
import Img2Web.Requests.FeedBody
import Img2Web.Concurrency.Services
import Img2Web.Concurrency.Feed
import Img2Web.Concurrency.Writes
import Img2Web.Concurrency.Success
import Img2Web.Concurrency.Tables
import Img2Web.Concurrency.StoredLogins
import Img2Web.Concurrency.PlainRequests
import Img2Web.Concurrency.Pictures
import Img2Web.Container.Bitmap
import Img2Web.Driver.Streams
import Img2Web.Driver.Connection
import Img2Web.Driver.Protocol
import Img2Web.Driver.Bookkeeping
import Img2Web.Driver.Preservation
import Img2Web.Driver.Delivery
import Img2Web.Driver.Closing
import Img2Web.Driver.Outcome
import Img2Web.Container.Framing
import Img2Web.Container.BigEndian
import Img2Web.Container.Reader
import Img2Web.Driver.Serialization
import Img2Web.Driver.Frame
import Img2Web.Driver.Socket
import Img2Web.Driver.QueryRequest
import Img2Web.Container.Dispenser
import Img2Web.Driver.LoadBalancing
import Img2Web.Driver.QueryPlans
import Img2Web.Driver.TokenAware
import Img2Web.Driver.TimestampGenerator
import Img2Web.Driver.RetryPolicy
import Img2Web.Driver.Request
import Img2Web.Driver.RequestRuns
import Img2Web.Driver.IOWorker
import Img2Web.Driver.Utils
import Img2Web.Driver.MPMCQueue
import Img2Web.Driver.AsyncQueue
import Img2Web.Driver.SPSCQueue
import Img2Web.Driver.HashTable
import Img2Web.Driver.DataType
import Img2Web.Driver.ResultResponse
import Img2Web.Driver.Rows
