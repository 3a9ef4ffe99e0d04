import LogService.Utf8
import LogService.Lts
import LogService.Framing
import LogService.XdrString
import LogService.Python.Basic
import LogService.Python.Json
import LogService.Python.Json.Scan
import LogService.Python.Xdrlib
import LogService.Go.Bufio
import LogService.Go.Json
import LogService.Server
import LogService.Server.Runs
import LogService.Delivery
import LogService.Client
import LogService.Xdr.Server
import LogService.Xdr.Client
import LogService.Xdr.Delivery
import LogService.Xdr.Availability
import LogService.XdrJson.Client
import LogService.XdrJson.Message
import LogService.XdrJson.Server
import LogService.XdrJson.Delivery
import LogService.XdrJson.Availability
import LogService.Network
import LogService.Network.Paced
import LogService.Clients
import LogService.System
import LogService.System.Progress
import LogService.Xdr.System
import LogService.XdrJson.System
import LogService.XdrJson.Table
import LogService.Server.Whole
import LogService.Xdr.Whole
import LogService.XdrJson.Whole
